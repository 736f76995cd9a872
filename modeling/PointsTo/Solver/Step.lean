import PointsTo.Solver.Reach

/-!
One step of solving: the next call is added, or when there is none, the next node passes on its new
objects.
-/
namespace PointsTo.Solve

/-- Binds the arguments of a call to the parameters of its callee, and the values that the callee
returns to the result. -/
def linkCall (site : InContext .callSite) (callee : InContext .method) (kind : CallEdgeKind) :
    Solve Unit := do
  let decl ← callSite site.entity
  let target ← methodDecl callee.entity
  (decl.args.zip target.params).forM fun (arg, param) =>
    addVarFlow site.context arg callee.context param .parameter
  if let some result := decl.result then
    target.returns.forM fun value =>
      addVarFlow callee.context value site.context result .ret
  if kind = .special then
    if let (some base, some receiver) := (decl.base, target.receiver) then
      addVarFlow site.context base callee.context receiver .parameter

/-- Adds a call of a method that has been reached. Plugins link the calls that they contribute. -/
def processCallEdge (edge : CallEdge) : Solve Unit := do
  let site ← siteAt edge.site
  let decl ← callSite site.entity
  let caller ← change (·.internMethod site.context decl.container)
  if !(← get).calls.isReached caller then
    let text ← siteText site.entity
    let context := ((← get).elements.context site.context).render
    throw (.invariantViolation
      s!"call edge from {text} whose caller is not reachable in context {context}")
  let calleeIsNew := !(← get).calls.isReached edge.callee
  let fresh ← change fun s =>
    let (fresh, calls) := s.calls.add caller edge
    (fresh, { s with calls })
  if fresh then
    if calleeIsNew then enter edge.callee
    modify (·.announce (.call edge))
    match edge.kind with
    | .extension .. => return
    | kind => linkCall site (← methodAt edge.callee) kind

/-- Instantiates the accesses to fields and arrays whose base is a variable for a new object. -/
def processAccesses (context : ContextId) (uses : VarUses) (o : ContextObjectId) :
    Solve Unit := do
  let var (v : VarId) : Solve Pointer := do return .var (← change (·.internVar context v))
  uses.loads.forM fun (field, lhs) => do addFlow (.field o field) (← var lhs) .fieldLoad
  uses.stores.forM fun (field, rhs) => do addFlow (← var rhs) (.field o field) .fieldStore
  uses.arrayLoads.forM fun lhs => do addFlow (.array o) (← var lhs) .arrayLoad
  uses.arrayStores.forM fun rhs => do addFlow (← var rhs) (.array o) .arrayStore

/-- The implementation of a method for a receiver. -/
def dispatch? (receiver : ContextObjectId) (target : MethodRef) : Solve (Option MethodId) := do
  let type := (← objectAt receiver).type
  let _ ← known ((← catalog).types[type]?)
  return (← get).program.dispatch type target.sub

/-- Adds an object to the receiver of a method in a context. -/
def bindReceiver (context : ContextId) (callee : MethodId) (receiver : ContextObjectId) :
    Solve Unit := do
  if let some this := (← methodDecl callee).receiver then
    let this ← change (·.internVar context this)
    modify (·.addVarObject this receiver)

/-- Dispatches a call on a new receiver. -/
def processReceiver (context : ContextId) (site : CallSiteId) (decl : CallSite)
    (receiver : ContextObjectId) : Solve Unit := do
  match ← dispatch? receiver decl.target with
  | none => modify (·.announce (.unresolved (some receiver) context site))
  | some callee =>
    let contextSite ← change (·.internSite context site)
    let calleeContext ← dispatchContext contextSite receiver
    bindReceiver calleeContext callee receiver
    let contextCallee ← change (·.internMethod calleeContext callee)
    let kind := if decl.kind = .interface then .interface else .virtual
    modify (·.queueCall ⟨contextSite, contextCallee, kind⟩)

def processVar (var : ContextVarId) (delta : Objects) : Solve Unit := do
  let v ← varAt var
  let uses ← known (← get).program.uses[v.entity]?
  if uses.hasAccesses then delta.toList.forM (processAccesses v.context uses)
  uses.invokes.forM fun site => do
    let decl ← callSite site
    delta.toList.forM (processReceiver v.context site decl)
  modify (·.announce (.objects var delta))

/-- Passes on the new objects of a node. -/
def processNode (n : NodeId) : Solve Unit := do
  let delta ← change fun s =>
    let (delta, points) := s.points.flush n
    (delta, { s with points })
  if let some delta := delta then
    (← get).flows.out n |>.forM fun (target, kind) => propagate target kind delta
    if let .var v := ← known ((← get).flows.pointer? n) then processVar v delta

/-- Does the next piece of work, with whether there was any. -/
def step : Solve Bool := do
  let s ← get
  match s.callQueue.pop? with
  | some (edge, callQueue) =>
    set { s with callQueue }
    processCallEdge edge
    return true
  | none => match s.worklist.pop? with
    | some (n, worklist) =>
      set { s with worklist }
      processNode n
      return true
    | none => return false

end PointsTo.Solve
