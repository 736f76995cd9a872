import PointsTo.Text.Numeral

/-!
The variables of a call site, told relative to the call.
-/
namespace PointsTo.Taint

inductive Position
  | base
  | result
  | arg (index : Nat)
  deriving DecidableEq, Repr

namespace Position

def name : Position → String
  | base => "base"
  | result => "result"
  | arg i => toString i

def ofName? (name : String) : Option Position :=
  if name = "base" then some base
  else if name = "result" then some result
  else (Text.natBelow? Text.bound64 name.toList).map arg

/-- Why a name denotes no position. -/
def unknown (name : String) : String := s!"invalid position `{name}`"

end Position

end PointsTo.Taint
