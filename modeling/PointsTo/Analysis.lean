import PointsTo.Plugin

/-!
Running an analysis: all pending events are handed to the plugins before the next piece of work is
done, until nothing is left.
-/
namespace PointsTo

/-- How a run ends. -/
inductive Verdict
  | finished
  | failed (fault : Fault)
  /-- The bound on the number of steps was reached first. -/
  | unfinished
  deriving DecidableEq, Repr

structure Run (σ : Type) where
  verdict : Verdict
  plugins : σ
  solver : Solver

namespace Analysis

variable {σ : Type}

/-- A call that no plugin takes care of is an error when it is linked at run time. -/
def reject (receiver : Option ContextObjectId) (site : CallSiteId) : Solve Unit := do
  match receiver with
  | none =>
    let mechanism := match (← Solve.callSite site).kind with
      | .dynamic call => call.bootstrap.name
      | _ => "unknown"
    throw (.unsupportedDynamicCall (← Solve.siteText site) mechanism)
  | some receiver =>
    let text ← Solve.siteText site
    let object ← Solve.objectAt receiver
    let type ← Solve.known ((← Solve.catalog).typeName? object.type)
    modify (·.warn s!"Cannot dispatch {text} on an object of type {type}")

/-- Hands an event to the plugins. -/
def dispatch (plugin : Plugin σ) : Event → Reaction σ Unit
  | .method m => plugin.onMethod m
  | .contextMethod m => plugin.onContextMethod m
  | .call edge => plugin.onCall edge
  | .objects var delta => plugin.onObjects var delta
  | .unresolved receiver context site => do
    if !(← plugin.onUnresolved receiver context site) then reject receiver site

/-- The oldest event, if there is one. -/
def nextEvent : Solve (Option Event) := do
  let s ← get
  match s.events.pop? with
  | some (event, events) =>
    set { s with events }
    return some event
  | none => return none

/-- One transition, with whether there was anything to do. -/
def step (plugin : Plugin σ) : Reaction σ Bool := do
  match ← nextEvent with
  | some event =>
    dispatch plugin event
    return true
  | none => Solve.step

/-- At most `fuel` transitions, with whether the end was reached. -/
def loop (plugin : Plugin σ) : (fuel : Nat) → Reaction σ Bool
  | 0 => return false
  | fuel + 1 => do if ← step plugin then loop plugin fuel else return true

/-- A whole run of at most `fuel` transitions. -/
def runWithin (fuel : Nat) (plugin : Plugin σ) : Reaction σ Verdict := do
  plugin.onStart
  Solve.reachEntries
  if ← loop plugin fuel then
    plugin.onFinish
    return .finished
  else return .unfinished

end Analysis

/-- Solves from an initial state, in at most `fuel` transitions. -/
def analyze {σ : Type} (fuel : Nat) (plugin : Plugin σ) (own : σ) (s : Solver) : Run σ :=
  match Analysis.runWithin fuel plugin (own, s) with
  | (.ok verdict, own, s) => ⟨verdict, own, s⟩
  | (.error fault, own, s) => ⟨.failed fault, own, s⟩

end PointsTo
