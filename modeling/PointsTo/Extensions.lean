import PointsTo.Analysis
import PointsTo.Lambda
import PointsTo.Taint.Tracking

/-!
Runs with the plugins that come with the analysis: function values, and taint tracking.
-/
namespace PointsTo

/-- The states of the plugins. -/
structure Extensions where
  lambda : Lambda.State := {}
  taint : Taint.Tracking := {}

/-- How a program is analysed. -/
structure Configuration where
  selector : Selector
  /-- Whether function values are linked to their methods. -/
  lambda : Bool
  /-- The rules of taint tracking, which is off without them. -/
  rules : Option Taint.Rules

namespace Extensions

instance : Inhabited Extensions := ⟨{}⟩

def lambdaPlugin : Plugin Extensions :=
  Lambda.plugin.focus Extensions.lambda fun lambda own => { own with lambda }

def taintPlugin (rules : Taint.Rules) : Plugin Extensions :=
  (Taint.plugin rules).focus Extensions.taint fun taint own => { own with taint }

end Extensions

namespace Configuration

/-- The plugins that are on: first function values, then taint tracking. -/
def plugins (c : Configuration) : List (Plugin Extensions) :=
  (if c.lambda then [Extensions.lambdaPlugin] else [])
    ++ (c.rules.map Extensions.taintPlugin).toList

/-- More transitions than a run can take in practice. -/
def patience : Nat := Nat.pow 2 62

def run (c : Configuration) (p : Program) : Run Extensions :=
  analyze patience (.all c.plugins) {} { program := p, selector := c.selector }

end Configuration

end PointsTo
