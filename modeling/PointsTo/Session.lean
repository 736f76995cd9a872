import PointsTo.Call.Dot
import PointsTo.Extensions
import PointsTo.Files
import PointsTo.Options.Basic
import PointsTo.Program.Assembly
import PointsTo.Report.Flows
import PointsTo.Report.Sets

/-!
Sessions: a program is loaded, analysed as the options ask, and the results are written to files.
-/
namespace PointsTo

inductive Stage
  | load
  | setup
  | analysis
  | output
  deriving DecidableEq, Repr

/-- The last stage that was begun, and the final state of the analysis when all went well. -/
structure Outcome where
  stage : Stage
  result : Except Fault Solver
  log : List Message

/-- Where a document goes. -/
inductive Target
  | standardOutput
  | file (path : String)
  deriving DecidableEq, Repr

structure Output where
  target : Target
  text : Option String

namespace Target

/-- The word `stdout` stands for the standard output. -/
def of (path : String) : Target := if path = "stdout" then standardOutput else file path

end Target

namespace Session

variable {m : Type → Type} [Monad m]

/-- The documents that the options ask for, in the order in which they are written. -/
def outputs (o : Options) (s : Solver) : List Output :=
  let sets := o.setsFile.map fun path => ⟨.of path, Report.sets? s⟩
  let callGraph := o.callGraphFile.map fun path => ⟨.file path, s.calls.dot? s.catalog s.elements⟩
  let flows := o.flowsFile.map fun path =>
    ⟨.of path, Report.flows? s.catalog (s.taintFlows?.getD [])⟩
  [sets, callGraph, flows].filterMap id

def put (files : Files m) (output : Output) : m (Except Fault Unit) := do
  match output.text, output.target with
  | none, _ => return throw .unknownId
  | some text, .standardOutput => files.print text; return pure ()
  | some text, .file path => files.write path text

/-- Writes documents up to the first fault. -/
def putAll (files : Files m) : List Output → m (Except Fault Unit)
  | [] => return pure ()
  | output :: rest => do
    match ← put files output with
    | .ok () => putAll files rest
    | .error f => return throw f

/-- The taint rules that the options ask for. -/
def rules (files : Files m) (p : Program) (o : Options) :
    m (Except Fault (Option Taint.Rules)) := do
  match o.taintRules with
  | none => return pure none
  | some path => match ← files.read path with
    | .ok text => return some <$> Taint.Rules.read p path text
    | .error (.document reason) => return throw (.config path reason)
    | .error f => return throw f

def configuration (o : Options) (rules : Option Taint.Rules) : Configuration where
  selector := .ofSensitivity o.depth o.sensitivity
  lambda := o.lambda
  rules := rules

/-- The fault of a run that does not end. -/
def endless : Fault := .invariantViolation "the analysis does not end"

/-- The final state of a run that has finished. -/
def finished {σ : Type} (run : Run σ) : Except Fault Solver :=
  match run.verdict with
  | .finished => pure run.solver
  | .failed f => throw f
  | .unfinished => throw endless

def run (files : Files m) (o : Options) (input : String) : m Outcome := do
  let program : Logged Program := match ← files.read input with
    | .ok text => Program.read text
    | .error f => ⟨throw f, []⟩
  match program.result with
  | .error f => return ⟨.load, throw f, program.log⟩
  | .ok p =>
    match ← rules files p o with
    | .error f => return ⟨.setup, throw f, program.log⟩
    | .ok rules =>
      let run := (configuration o rules).run p
      let log := program.log ++ run.solver.log.toList
      match finished run with
      | .error f => return ⟨.analysis, throw f, log⟩
      | .ok s => return ⟨.output, (← putAll files (outputs o s)).map fun () => s, log⟩

end Session

end PointsTo
