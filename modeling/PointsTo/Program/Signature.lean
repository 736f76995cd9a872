import PointsTo.Fault
import PointsTo.Text.Blank
import PointsTo.Text.Cut

/-!
Method signatures as text: `<owner: result name(params)>`.
-/
namespace PointsTo

/-- The parts of a written signature. A void method has no result. -/
structure Signature where
  owner : String
  result : Option String
  name : String
  params : List String
  deriving DecidableEq, Repr

namespace Signature

open Text

/-- The parameters between the parentheses, without blanks around them and without empty ones. -/
def paramList (s : List Char) : List String :=
  (((pieces ',' s).map trim).filter fun p => !p.isEmpty).map String.ofList

/-- Reads a signature. Blanks may stand around the whole, before the result type, and around the
name, the owner and the parameters. -/
def read? (text : String) : Option Signature := do
  let inner ← before? ['>'] (← after? ['<'] (trim text.toList))
  let (owner, rest) ← cut? [':', ' '] inner
  let (result, rest) ← cut? [' '] (trim rest)
  let (name, rest) ← cut? ['('] rest
  let params ← before? [')'] rest
  if owner.isEmpty || name.isEmpty then none
  return {
    owner := String.ofList (trim owner)
    result := if result = "void".toList then none else some (String.ofList result)
    name := String.ofList (trim name)
    params := paramList params }

def render (s : Signature) : String :=
  let params := ",".intercalate s.params
  let result := s.result.getD "void"
  s!"<{s.owner}: {result} {s.name}({params})>"

def read (text : String) : Except Fault Signature :=
  match read? text with
  | some s => pure s
  | none => throw (.program s!"malformed method signature `{text}`")

end Signature

end PointsTo
