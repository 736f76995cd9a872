import PointsTo.Solver.Update

/-!
What a method contributes once it is reached: its allocations, its flows between variables and
static fields, and the calls whose target does not depend on a receiver.
-/
namespace PointsTo.Solve

/-- The description of the objects that stand for concatenated strings. -/
def stringConcatenation : String := "StringConcatObj"

/-- A call of a method that the call site itself names. -/
def processNamedCall (context : ContextId) (site : CallSiteId) (target : MethodRef)
    (kind : CallEdgeKind) : Solve Unit := do
  match (← get).program.resolve target with
  | some callee =>
    let contextSite ← change (·.internSite context site)
    let calleeContext ← calleeContext contextSite
    let contextCallee ← change (·.internMethod calleeContext callee)
    modify (·.queueCall ⟨contextSite, contextCallee, kind⟩)
  | none =>
    let text ← siteText site
    modify (·.warn s!"Cannot resolve the target of {text}")

/-- A string concatenation gives its result a string of its own; other calls that are linked at run
time are left to the plugins. -/
def processDynamicCall (context : ContextId) (site : CallSiteId) (decl : CallSite)
    (call : DynamicCall) : Solve Unit := do
  if call.bootstrap = .stringConcat then
    if let (some result, some type) := (decl.result, decl.target.sub.result) then
      let o ← change (·.mock stringConcatenation site type (some decl.container))
      modify (·.addObjectIn context result ContextTable.emptyId o)
  else modify (·.announce (.unresolved none context site))

/-- The calls that depend on a receiver are made when objects reach it. -/
def processCall (context : ContextId) (site : CallSiteId) : Solve Unit := do
  let decl ← callSite site
  match decl.kind with
  | .static => processNamedCall context site decl.target .static
  | .special => processNamedCall context site decl.target .special
  | .virtual | .interface => return
  | .dynamic call => processDynamicCall context site decl call

/-- The contribution of a statement. Accesses to fields and arrays are instantiated when objects
reach their base. -/
def processStatement (contextMethod : ContextMethodId) (m : InContext .method) (index : Nat) :
    Statement → Solve Unit
  | .new lhs type => do
    let o ← change (·.allocate m.entity index type)
    let heapContext ← heapContext contextMethod
    modify (·.addObjectIn m.context lhs heapContext o)
  | .assign lhs rhs => addVarFlow m.context rhs m.context lhs .assign
  | .cast lhs rhs type => addVarFlow m.context rhs m.context lhs (.cast type)
  | .loadStatic lhs field => do
    let lhs ← change (·.internVar m.context lhs)
    addFlow (.static field) (.var lhs) .staticLoad
  | .storeStatic field rhs => do
    let rhs ← change (·.internVar m.context rhs)
    addFlow (.var rhs) (.static field) .staticStore
  | .invoke site => processCall m.context site
  | .loadField .. | .storeField .. | .loadArray .. | .storeArray .. | .ret _ => return

def processMethod (contextMethod : ContextMethodId) : Solve Unit := do
  let m ← methodAt contextMethod
  let decl ← methodDecl m.entity
  decl.body.toList.zipIdx.forM fun (s, index) => processStatement contextMethod m index s

/-- Announces a method that has just been reached, and adds what it contributes. -/
def enter (contextMethod : ContextMethodId) : Solve Unit := do
  let m := (← methodAt contextMethod).entity
  if !(← get).reachedMethods.contains m then
    modify fun s => { s with reachedMethods := s.reachedMethods.insert m }
    modify (·.announce (.method m))
  modify (·.announce (.contextMethod contextMethod))
  processMethod contextMethod

def reach (contextMethod : ContextMethodId) : Solve Unit := do
  let fresh ← change fun s =>
    let (fresh, calls) := s.calls.reach contextMethod
    (fresh, { s with calls })
  if fresh then enter contextMethod

/-- Makes every entry method reachable in the empty context. -/
def reachEntries : Solve Unit := do
  (← catalog).entries.forM fun entry => do
    reach (← change (·.internMethod ContextTable.emptyId entry))

end PointsTo.Solve
