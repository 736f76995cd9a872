/-!
The context abstractions of a points-to analysis.
-/
namespace PointsTo

inductive Sensitivity
  | insensitive
  | callSite
  | object
  | type
  deriving DecidableEq, Repr

namespace Sensitivity

def name : Sensitivity → String
  | insensitive => "ci"
  | callSite => "callsite-sensitive"
  | object => "object-sensitive"
  | type => "type-sensitive"

def ofName? : String → Option Sensitivity
  | "ci" | "context-insensitive" => some insensitive
  | "cs" | "callsite-sensitive" => some callSite
  | "obj" | "object-sensitive" => some object
  | "type" | "type-sensitive" => some type
  | _ => none

/-- Why a name denotes no abstraction. -/
def unknown (name : String) : String := s!"unknown pointer analysis type `{name}`"

theorem ofName?_name (s : Sensitivity) : ofName? s.name = some s := by cases s <;> rfl

end Sensitivity

end PointsTo
