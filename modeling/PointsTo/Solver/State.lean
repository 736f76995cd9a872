import PointsTo.Ascending
import PointsTo.Call.Graph
import PointsTo.Context.Selector
import PointsTo.Facts.Pending
import PointsTo.Flow.Graph
import PointsTo.Log
import PointsTo.Program.Hierarchy
import PointsTo.Queue
import PointsTo.Taint.Flow

/-!
The state of a points-to analysis: what is known so far, and the work that is still to be done.
-/
namespace PointsTo

open Facts

/-- Sets of objects in contexts. -/
abbrev Objects := HybridSet ContextObjectId

/-- What happened while solving, for plugins to react to. -/
inductive Event
  /-- A method was reached for the first time, in any context. -/
  | method (method : MethodId)
  | contextMethod (method : ContextMethodId)
  | call (edge : CallEdge)
  /-- A call without a target: the receiver on which dispatch failed, absent at call sites that are
  linked at run time. -/
  | unresolved (receiver : Option ContextObjectId) (context : ContextId) (site : CallSiteId)
  /-- The set of a variable grew by these objects. -/
  | objects (var : ContextVarId) (delta : Objects)

/-- What plugins leave behind for whoever asks for it. -/
inductive Finding
  | flows (flows : List Taint.TaintFlow)
  | text (text : String)
  deriving DecidableEq, Repr

structure Solver where
  program : Program
  selector : Selector
  elements : Elements := {}
  flows : FlowGraph := {}
  calls : CallGraph := {}
  /-- The objects of each pointer, by its node in the flow graph. -/
  points : PendingStore NodeId ContextObjectId := {}
  /-- The nodes whose new objects are still to be passed on. -/
  worklist : Queue NodeId := ∅
  /-- The calls that are still to be added. They take precedence over nodes, so that a callee is
  reached before the objects of its receiver are passed on. -/
  callQueue : Queue CallEdge := ∅
  events : Queue Event := ∅
  /-- The methods that were reached in any context. -/
  reachedMethods : IndexSet MethodId := ∅
  findings : List (String × Finding) := []
  /-- The messages for the user, in the order of their issue. -/
  log : Array Message := #[]

/-- A computation on the state that may fail. What was done before a fault stays done. -/
abbrev Solve := ExceptT Fault (StateM Solver)

namespace Solver

instance : Inhabited Solver := ⟨{ program := default, selector := .insensitive }⟩

def catalog (s : Solver) : Catalog := s.program.toCatalog

/-! ### Points-to sets -/

def nodeObjects (s : Solver) (n : NodeId) : Objects := s.points.all n

def pointsTo (s : Solver) (p : Pointer) : Objects :=
  match s.flows.node? p with
  | some n => s.nodeObjects n
  | none => ∅

def varObjects (s : Solver) (v : ContextVarId) : Objects := s.pointsTo (.var v)

def objectsIn (s : Solver) (context : ContextId) (v : VarId) : Objects :=
  match s.elements.vars.find? context v with
  | some copy => s.varObjects copy
  | none => ∅

/-- The abstract objects that a variable may point to in any context, in ascending order. -/
def objectsOf? (s : Solver) (v : VarId) : Option (List ObjectId) := do
  let objects := (s.elements.vars.copiesOf v).flatMap fun copy => (s.varObjects copy).toList
  let objects ← objects.mapM fun o => (s.elements.objects.get? o).map InContext.entity
  return ascending (fun a b => decide (a ≤ b)) objects

/-! ### Calls -/

def siteOf? (s : Solver) (site : ContextSiteId) : Option CallSiteId :=
  (s.elements.sites.get? site).map InContext.entity

def methodOf? (s : Solver) (m : ContextMethodId) : Option MethodId :=
  (s.elements.methods.get? m).map InContext.entity

/-- The call sites that call a method in any context, in ascending order. -/
def callersOf? (s : Solver) (m : MethodId) : Option (List CallSiteId) := do
  let calls := (s.elements.methods.copiesOf m).flatMap s.calls.callersOf
  return ascending (fun a b => decide (a ≤ b)) (← calls.mapM fun e => s.siteOf? e.site)

/-- The methods that a call site calls in any context, in ascending order. -/
def calleesOfSite? (s : Solver) (site : CallSiteId) : Option (List MethodId) := do
  let callees := (s.elements.sites.copiesOf site).flatMap s.calls.calleesOfSite
  return ascending (fun a b => decide (a ≤ b)) (← callees.mapM s.methodOf?)

/-- The methods that are called from a method in any context, in ascending order. -/
def calleesOf? (s : Solver) (m : MethodId) : Option (List MethodId) := do
  let calls := (s.elements.methods.copiesOf m).flatMap s.calls.calleesOf
  return ascending (fun a b => decide (a ≤ b)) (← calls.mapM fun e => s.methodOf? e.callee)

def isReachable (s : Solver) (m : MethodId) : Bool := s.reachedMethods.contains m

/-- The methods reached in any context, in ascending order. -/
def reachableMethods (s : Solver) : List MethodId :=
  ascending (fun a b => decide (a ≤ b)) s.reachedMethods.toList

def finding? (s : Solver) (key : String) : Option Finding := s.findings.lookup key

end Solver

end PointsTo
