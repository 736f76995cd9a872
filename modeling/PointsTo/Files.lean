import PointsTo.Fault

/-!
Access to files.
-/
namespace PointsTo

/-- How a computation in `m` reaches files and the standard output. -/
structure Files (m : Type → Type) where
  read : (path : String) → m (Except Fault String)
  write : (path text : String) → m (Except Fault Unit)
  print : (text : String) → m Unit

end PointsTo
