import PointsTo.Solver.State

/-!
The points-to relation between variables and abstract objects, over all contexts.
-/
namespace PointsTo

/-- The order by the first component, then by the second. -/
def pairLe {k l : Entity} (a b : Id k × Id l) : Bool :=
  decide (a.1 < b.1) || a.1 == b.1 && decide (a.2 ≤ b.2)

namespace Solver

/-- The pointers that have objects, with their objects, in the order of the flow graph. -/
def inhabited (s : Solver) : List (Pointer × Objects) :=
  (s.flows.nodes.toList.map fun p => (p, s.pointsTo p)).filter fun (_, objects) => !objects.isEmpty

/-- The pairs that the objects of a pointer contribute: none unless it is a variable. -/
def pairsAt? (s : Solver) (p : Pointer) (objects : Objects) :
    Option (List (VarId × ObjectId)) := do
  match p with
  | .var v =>
    let v := (← s.elements.vars.get? v).entity
    objects.toList.mapM fun o => do return (v, (← s.elements.objects.get? o).entity)
  | .field .. | .array _ | .static _ => return []

/-- The pairs of a variable and an object that it may point to in some context, in ascending
order. -/
def pairs? (s : Solver) : Option (List (VarId × ObjectId)) := do
  let pairs ← s.inhabited.mapM fun (p, objects) => s.pairsAt? p objects
  return ascending pairLe pairs.flatten

end Solver

end PointsTo
