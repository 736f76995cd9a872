import PointsTo.Plugin
import PointsTo.Taint.Rules

/-!
Taint tracking: tainted values are objects made up at the calls of sources, and travel like any
other object; transfers copy them from one variable of a call to another. In the end every tainted
value that reaches an argument of a sink is reported.
-/
namespace PointsTo.Taint

/-- The description of tainted values. -/
def taintedValue : String := "TaintObj"

/-- The key under which the flows are left. -/
def findingKey : String := "taint-flows"

/-- The transfers that are known so far, by the variable that they start from. -/
structure Tracking where
  transfers : Index VarId (List (VarId × TypeId)) := ∅

namespace Tracking

instance : Inhabited Tracking := ⟨{}⟩

def transfersFrom (t : Tracking) (v : VarId) : List (VarId × TypeId) := t.transfers.getD v []

def add (t : Tracking) (source target : VarId) (type : TypeId) : Tracking :=
  let known := t.transfersFrom source
  if (target, type) ∈ known then t
  else { t with transfers := t.transfers.insert source (known ++ [(target, type)]) }

end Tracking

/-- The source call of a tainted value. -/
def sourceCall? (o : AbstractObject) : Option CallSiteId :=
  match o.origin with
  | .mock description site => if description = taintedValue then some site else none
  | .allocation .. => none

/-- The variable at a position of a call. -/
def varAt? (decl : CallSite) : Position → Option VarId
  | .base => decl.base
  | .result => decl.result
  | .arg i => decl.args[i]?

/-- The tainted value of a source call, as a value of a type, in the empty context. -/
def taint (source : CallSiteId) (type : TypeId) : Solve ContextObjectId := do
  let o ← Solve.change (·.mock taintedValue source type none)
  Solve.change (·.internObject ContextTable.emptyId o)

/-- Copies the tainted values among some objects to a variable, as values of a type. -/
def carry (objects : Objects) (context : ContextId) (target : VarId) (type : TypeId) :
    Solve Unit := do
  let origins ← objects.toList.mapM fun o => return sourceCall? (← Solve.objectAt o)
  let copies ← (origins.filterMap id).mapM fun source => taint source type
  modify (·.addObjectsIn context target (Facts.HybridSet.ofList copies))

/-- Taints the result of a call of a source, and starts the transfers of the callee. -/
def onCall (rules : Rules) (edge : CallEdge) : Reaction Tracking Unit := do
  let site ← Solve.siteAt edge.site
  let callee := (← Solve.methodAt edge.callee).entity
  let decl ← Solve.callSite site.entity
  if let some result := decl.result then
    (rules.sourceTypes callee).forM fun type => Reaction.solve do
      let o ← Solve.change (·.mock taintedValue site.entity type none)
      modify (·.addObjectIn site.context result ContextTable.emptyId o)
  (rules.transfersOf callee).forM fun rule => do
    if let (some source, some target) := (varAt? decl rule.source, varAt? decl rule.target) then
      Reaction.modifyOwn (·.add source target rule.type)
      let objects := (← Reaction.solver).objectsIn site.context source
      carry objects site.context target rule.type

/-- Carries the new objects of a variable along the transfers that start from it. -/
def onObjects (var : ContextVarId) (delta : Objects) : Reaction Tracking Unit := do
  let v ← Solve.varAt var
  ((← Reaction.own).transfersFrom v.entity).forM fun (target, type) =>
    carry delta v.context target type

/-- The flows into a sink. -/
def flowsInto? (s : Solver) (sink : SinkRule MethodId) : Option (List TaintFlow) := do
  let flows ← (← s.callersOf? sink.method).mapM fun call => do
    let decl ← s.program.callSites[call]?
    match decl.args[sink.index]? with
    | none => return []
    | some arg =>
      let objects ← (← s.objectsOf? arg).mapM s.elements.heap.get?
      return (objects.filterMap sourceCall?).map fun source => ⟨source, call, sink.index⟩
  return flows.flatten

/-- All flows, in ascending order. -/
def flows? (s : Solver) (sinks : List (SinkRule MethodId)) : Option (List TaintFlow) := do
  return ascending TaintFlow.le (← sinks.mapM (flowsInto? s)).flatten

def plugin (rules : Rules) : Plugin Tracking where
  onCall := onCall rules
  onObjects := onObjects
  onFinish := do
    let flows ← Solve.known (flows? (← Reaction.solver) rules.sinks)
    Reaction.solve (modify (·.store findingKey (.flows flows)))

end PointsTo.Taint
