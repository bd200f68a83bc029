import CellMachine.Assembly.Directive
import CellMachine.Assembly.Resolve
import CellMachine.Assembly.Token

/-!
# Assembling

Source text becomes a program in three stages: its directives are expanded, the expanded text is
split into token lines, and the lines are parsed. The expansion is given a number of rounds, since
a text that includes itself is never expanded.
-/

namespace CellMachine.Assembly

/-- The reasons for which a text is not assembled. -/
inductive AssemblyFault where
  | directive (fault : DirectiveFault)
  | parse (error : ParseError)
  /-- The rounds of expansion did not suffice. -/
  | unfinished
  deriving DecidableEq, Repr

def AssemblyFault.message : AssemblyFault → String
  | .directive fault => fault.message
  | .parse error => error.message
  | .unfinished => "the expansion did not finish"

/-- The program of a source text. What is logged comes after `log`. -/
def assemble (files : Files.Live) (base : Option Files.Path) (rounds : Nat) (source : String)
    (defines : Table String) (log : Array Log.Record) :
    Except AssemblyFault Program × Array Log.Record :=
  let e := (Expansion.start source defines log).after files base rounds
  match e.status with
  | .expanding => (.error .unfinished, e.log)
  | .failed fault => (.error (.directive fault), e.log)
  | .finished =>
    match (parse (tokenize e.defines (String.ofList e.text)) e.defines).program with
    | .error error => (.error (.parse error), e.log)
    | .ok program => (.ok program, e.log)

end CellMachine.Assembly
