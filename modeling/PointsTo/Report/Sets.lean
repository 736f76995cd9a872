import PointsTo.Groups
import PointsTo.Report.Relation

/-!
The points-to sets of all variables as a text: a section for each method, with a row for each of
its variables that has objects.
-/
namespace PointsTo.Report

/-- A variable with the texts of its objects, in ascending order. -/
structure Row where
  name : String
  objects : List String
  deriving DecidableEq, Repr

def Row.text (r : Row) : String :=
  "  " ++ r.name ++ " ==> \x7b " ++ ", ".intercalate r.objects ++ " \x7d\n"

/-- The method of a variable, and the row for the variable. -/
def row? (s : Solver) (v : VarId) (objects : List ObjectId) : Option (MethodId × Row) := do
  let decl ← s.catalog.vars[v]?
  let texts ← objects.mapM fun o => do s.catalog.objectText? (← s.elements.heap.get? o)
  return (decl.method, ⟨decl.name, ascending (fun a b => decide (a ≤ b)) texts⟩)

/-- The rows of all variables by their methods, both in ascending order. -/
def sections? (s : Solver) : Option (List (MethodId × List Row)) := do
  let rows ← (groups (← s.pairs?)).mapM fun (v, objects) => row? s v objects
  return groups (rows.mergeSort fun a b => decide (a.1 ≤ b.1))

def sectionText? (s : Solver) (method : MethodId) (rows : List Row) : Option String := do
  let signature ← s.catalog.signature? method
  return signature ++ ":\n" ++ String.join (rows.map Row.text)

def sets? (s : Solver) : Option String := do
  let texts ← (← sections? s).mapM fun (method, rows) => sectionText? s method rows
  return String.join texts

end PointsTo.Report
