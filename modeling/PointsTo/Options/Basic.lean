import PointsTo.Context.Sensitivity

/-!
What a user may choose for a run.
-/
namespace PointsTo

structure Options where
  sensitivity : Sensitivity := .callSite
  /-- The limit on the length of contexts. -/
  depth : Nat := 1
  /-- The file with the taint rules. -/
  taintRules : Option String := none
  lambda : Bool := true
  statistics : Bool := false
  /-- The files for the call graph, for the points-to sets and for the taint flows. -/
  callGraphFile : Option String := none
  setsFile : Option String := none
  flowsFile : Option String := none
  /-- The file with the program. -/
  input : Option String := none
  deriving DecidableEq, Repr

instance : Inhabited Options := ⟨{}⟩

end PointsTo
