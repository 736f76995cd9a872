import PointsTo.Options.Basic
import PointsTo.Text.Numeral

/-!
The settings that arguments can make: their names, and the values that they take.
-/
namespace PointsTo

inductive Setting
  | sensitivity
  | depth
  | taintRules
  | noLambda
  | statistics
  | callGraph
  | sets
  | flows
  /-- The only setting without a name. -/
  | input
  deriving DecidableEq, Repr

/-- Why arguments cannot be used. -/
inductive Mistake
  | unknownArgument (argument : String)
  | unknownChoice (value : String)
  | notADepth (value : String)
  | missingValue (setting : Setting)
  | needlessValue (name : String)
  | repeated (setting : Setting)
  deriving DecidableEq, Repr

namespace Setting

def name : Setting → String
  | sensitivity => "pta-type"
  | depth => "context-depth"
  | taintRules => "taint-config"
  | noLambda => "no-lambda"
  | statistics => "dump-stats"
  | callGraph => "dump-call-graph"
  | sets => "dump-pts"
  | flows => "dump-taint-flows"
  | input => "INPUT"

/-- The settings with names. -/
def named : List Setting :=
  [sensitivity, depth, taintRules, noLambda, statistics, callGraph, sets, flows]

def ofName? (name : String) : Option Setting := named.find? fun s => s.name == name

def takesValue : Setting → Bool
  | noLambda | statistics => false
  | _ => true

/-- A number of 32 bits with an optional sign; below zero there is none but zero itself. -/
def depth? : List Char → Option Nat
  | '-' :: rest => if rest.isEmpty then none else (Text.digits? rest).filter (· == 0)
  | s => Text.natBelow? Text.bound32 s

/-- Whether a text can be a value. -/
def check : Setting → String → Except Mistake Unit
  | sensitivity, value => if (Sensitivity.ofName? value).isSome then pure ()
      else throw (.unknownChoice value)
  | depth, value => if (depth? value.toList).isSome then pure () else throw (.notADepth value)
  | _, _ => pure ()

/-- The options with the setting made. -/
def apply (o : Options) : Setting → Option String → Options
  | sensitivity, value => match value.bind Sensitivity.ofName? with
    | some s => { o with sensitivity := s }
    | none => o
  | depth, value => match value.bind fun v => depth? v.toList with
    | some n => { o with depth := n }
    | none => o
  | taintRules, value => { o with taintRules := value <|> o.taintRules }
  | noLambda, _ => { o with lambda := false }
  | statistics, _ => { o with statistics := true }
  | callGraph, value => { o with callGraphFile := value <|> o.callGraphFile }
  | sets, value => { o with setsFile := value <|> o.setsFile }
  | flows, value => { o with flowsFile := value <|> o.flowsFile }
  | input, value => { o with input := value <|> o.input }

theorem ofName?_name {s : Setting} (h : s ≠ input) : ofName? s.name = some s := by
  cases s <;> first | rfl | exact absurd rfl h

end Setting

namespace Mistake

def message : Mistake → String
  | unknownArgument argument => s!"Found argument '{argument}' which wasn't expected"
  | unknownChoice value => s!"'{value}' isn't a valid value for '--pta-type'"
  | notADepth value => s!"Invalid value '{value}' for '--context-depth'"
  | missingValue setting => s!"The argument '--{setting.name}' requires a value"
  | needlessValue name => s!"The argument '--{name}' doesn't take a value"
  | repeated setting => s!"The argument '--{setting.name}' was provided more than once"

end Mistake

end PointsTo
