import PointsTo.Json.Printer
import PointsTo.Taint.Tracking

/-!
Taint flows as a JSON document.
-/
namespace PointsTo.Report

def flow? (c : Catalog) (f : Taint.TaintFlow) : Option Json := do
  return .ofMembers [("source", .ofString (← c.siteText? f.source)),
    ("sink", .ofString (← c.siteText? f.sink)), ("index", .ofNat f.index)]

def flows? (c : Catalog) (flows : List Taint.TaintFlow) : Option String := do
  return (Json.array (← flows.mapM (flow? c))).pretty ++ "\n"

end PointsTo.Report

namespace PointsTo.Solver

/-- The taint flows that a plugin has left behind, if any has. -/
def taintFlows? (s : Solver) : Option (List Taint.TaintFlow) :=
  match s.finding? Taint.findingKey with
  | some (.flows flows) => some flows
  | _ => none

end PointsTo.Solver
