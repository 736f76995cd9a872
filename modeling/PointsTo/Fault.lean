/-!
Why an analysis cannot give its answer.
-/
namespace PointsTo

inductive Fault
  /-- A rule or another setting cannot be used; `key` names it. -/
  | config (key message : String)
  | program (message : String)
  /-- A call site that is linked at run time, and that no plugin claims. -/
  | unsupportedDynamicCall (callSite mechanism : String)
  | invariantViolation (message : String)
  /-- A file cannot be read or written. -/
  | file (message : String)
  /-- A text is not the JSON document that is expected, or it cannot be read to its end. -/
  | document (reason : String)
  /-- An id was used that names no entity. -/
  | unknownId
  /-- Something would take more memory than can be set aside for it. -/
  | noRoom
  deriving DecidableEq, Repr

namespace Fault

/-- Why a text is refused that is not the JSON document that is expected. -/
def malformed : String := "malformed JSON document"

def message : Fault → String
  | config key message => s!"Invalid configuration `{key}`: {message}"
  | program message => s!"Malformed program: {message}"
  | unsupportedDynamicCall callSite mechanism =>
    s!"Unsupported dynamic call at {callSite}: {mechanism}"
  | invariantViolation message => s!"Invariant violation: {message}"
  | file message => message
  | document reason => reason
  | unknownId => "unknown id"
  | noRoom => "no room in memory"

end Fault

end PointsTo
