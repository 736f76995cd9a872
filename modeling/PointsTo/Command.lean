import PointsTo.Options.Arguments
import PointsTo.Options.Help
import PointsTo.Report.Statistics
import PointsTo.Session

/-!
The command: a session whose options come from its arguments.
-/
namespace PointsTo

/-- The exit code of a command, and what it says on the error output. -/
structure Exit where
  code : Nat
  complaint : String := ""
  deriving DecidableEq, Repr

namespace Command

variable {m : Type → Type} [Monad m]

def success : Exit := ⟨0, ""⟩

def failure (complaint : String) : Exit := ⟨1, s!"error: {complaint}\n"⟩

/-- The code of a command whose arguments cannot be used. -/
def misuse (mistake : Mistake) : Exit :=
  ⟨2, s!"error: {mistake.message}\n\n{Help.usage}\nFor more information try --help\n"⟩

/-- What went wrong in a stage. -/
def circumstance (input : String) : Stage → String
  | .load => s!"failed to load the program from {input}"
  | .setup => "failed to set up the analysis"
  | .analysis => "pointer analysis failed"
  | .output => "failed to dump the results"

/-- Arguments that hold for every call: a JSON array of strings; anything else stands for none. -/
def standing (text : String) : List String :=
  ((Json.read? text).bind (Json.list? Json.string?)).getD []

/-- The standing arguments come first, so the arguments of the call override them. -/
def options (standingText : String) (arguments : List String) : Except Interruption Options := do
  (← Options.read {} (standing standingText)).read arguments

def interrupted (files : Files m) : Interruption → m Exit
  | .mistake mistake => return misuse mistake
  | .help full => do files.print (Help.text full); return success
  | .version => do files.print Help.version; return success

def printStatistics (files : Files m) (s : Solver) : m Exit := do
  match Statistics.of? s with
  | some t => files.print t.text; return success
  | none => return failure Fault.unknownId.message

def analyse (files : Files m) (o : Options) : m Exit := do
  match o.input with
  | none => return failure "no input program given"
  | some input =>
    let outcome ← Session.run files o input
    match outcome.result with
    | .error f => return failure s!"{circumstance input outcome.stage}: {f.message}"
    | .ok s => if o.statistics then printStatistics files s else return success

def run (files : Files m) (standingText : String) (arguments : List String) : m Exit :=
  match options standingText arguments with
  | .error i => interrupted files i
  | .ok o => analyse files o

end Command

end PointsTo
