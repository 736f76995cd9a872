import PointsTo.Fault

/-!
Messages for the user that go along with an answer.
-/
namespace PointsTo

inductive Severity
  | warning
  | error
  deriving DecidableEq, Repr

structure Message where
  severity : Severity
  text : String
  deriving DecidableEq, Repr

/-- An answer or a fault, with the messages issued on the way to it. -/
structure Logged (α : Type) where
  result : Except Fault α
  log : List Message := []

namespace Message

def render (m : Message) : String :=
  match m.severity with
  | .warning => "WARN " ++ m.text
  | .error => "ERROR " ++ m.text

end Message

end PointsTo
