import PointsTo.Plugin

/-!
Function values: lambdas and method references.

Every creation site yields an object that stands for the function value. When a call on such an
object has no target, the call goes to the method that the creation site hands over, provided that
the names agree.
-/
namespace PointsTo.Lambda

/-- The description of function values. -/
def functionValue : String := "LambdaObj"

/-- The description of the objects that constructor references make. -/
def constructedObject : String := "LambdaConstructedObj"

/-- The tag of the calls added here. -/
def callTag : String := "lambda"

/-- A call of a function value whose method needs a receiver that may still gain objects. -/
structure Invocation where
  site : ContextSiteId
  creation : CallSiteId
  creationContext : ContextId
  deriving DecidableEq, Repr

structure State where
  /-- The function values that are created in each method. -/
  values : Index MethodId (List (CallSiteId × ObjectId)) := ∅
  /-- The calls to dispatch again when a receiver variable gains objects. -/
  waiting : Index ContextVarId (List Invocation) := ∅

instance : Inhabited State := ⟨{}⟩

namespace State

def valuesOf (l : State) (m : MethodId) : List (CallSiteId × ObjectId) := l.values.getD m []

def addValue (l : State) (m : MethodId) (site : CallSiteId) (o : ObjectId) : State :=
  { l with values := l.values.insert m (l.valuesOf m ++ [(site, o)]) }

def waitingOn (l : State) (v : ContextVarId) : List Invocation := l.waiting.getD v []

def wait (l : State) (v : ContextVarId) (i : Invocation) : State :=
  if i ∈ l.waitingOn v then l else { l with waiting := l.waiting.insert v (l.waitingOn v ++ [i]) }

end State

def isCreation (decl : CallSite) : Bool :=
  match decl.kind with
  | .dynamic call => call.bootstrap == .lambda
  | _ => false

/-- The method that a creation site hands over. -/
def handleOf (creation : CallSiteId) : Solve MethodHandle := do
  match (← Solve.callSite creation).kind with
  | .dynamic ⟨_, some handle⟩ => return handle
  | _ => throw (.unsupportedDynamicCall (← Solve.siteText creation)
      "LambdaMetafactory without an implementation method handle")

/-- Adds a call of a function value's method, with a receiver where the method takes one. -/
def addCall (i : Invocation) (receiver : Option ContextObjectId) (callee : MethodId) :
    Solve Unit := do
  let context ← match receiver with
    | some receiver => do
      let context ← Solve.dispatchContext i.site receiver
      Solve.bindReceiver context callee receiver
      pure context
    | none => Solve.calleeContext i.site
  let contextCallee ← Solve.change (·.internMethod context callee)
  let origin ← Solve.change (·.internSite i.creationContext i.creation)
  modify (·.queueCall ⟨i.site, contextCallee, .extension callTag origin⟩)

/-- Dispatches a function value's method on each receiver. -/
def dispatchOn (i : Invocation) (receivers : Objects) : Solve Unit := do
  let target := (← handleOf i.creation).target
  receivers.toList.forM fun receiver => do
    if let some callee ← Solve.dispatch? receiver target then addCall i (some receiver) callee

/-- Makes the function values of a method. -/
def createValues (m : MethodId) : Reaction State Unit := do
  (← Solve.methodDecl m).body.toList.forM fun
    | .invoke site => do
      let decl ← Solve.callSite site
      if isCreation decl then
        if let (some _, some type) := (decl.result, decl.target.sub.result) then
          let o ← Solve.change (·.mock functionValue site type (some m))
          Reaction.modifyOwn (·.addValue m site o)
    | _ => return

/-- Gives the function values of a method to the results of their creation sites. Their context is
that of the method, so that captured values can be read in it. -/
def placeValues (contextMethod : ContextMethodId) : Reaction State Unit := do
  let m ← Solve.methodAt contextMethod
  ((← Reaction.own).valuesOf m.entity).forM fun (site, o) => do
    if let some result := (← Solve.callSite site).result then
      Reaction.solve (modify (·.addObjectIn m.context result m.context o))

/-- A constructor reference makes an object of its own for each creation site. -/
def construct (i : Invocation) (context : ContextId) (decl creation : CallSite)
    (target : MethodId) : Solve Unit := do
  let type := (← Solve.methodDecl target).ref.owner
  let o ← Solve.change (·.mock constructedObject i.creation type (some creation.container))
  let o ← Solve.change (·.internObject context o)
  if let some result := decl.result then
    let result ← Solve.change (·.internVar context result)
    modify (·.addVarObject result o)
  addCall i (some o) target

/-- The receiver of an instance method is the first captured value, or when nothing is captured,
the first argument. -/
def receiverOf? (i : Invocation) (context : ContextId) (decl creation : CallSite) :
    Option (ContextId × VarId) :=
  match creation.args, decl.args with
  | captured :: _, _ => some (i.creationContext, captured)
  | [], actual :: _ => some (context, actual)
  | [], [] => none

/-- Links a call of a function value whose creation site is known. -/
def invoke (i : Invocation) (context : ContextId) (site : CallSiteId) (decl creation : CallSite) :
    Reaction State Unit := do
  let handle ← handleOf i.creation
  match (← Reaction.solver).program.resolve handle.target with
  | none =>
    let target ← Solve.known ((← Solve.catalog).refSignature? handle.target)
    let text ← Solve.siteText i.creation
    Reaction.solve (modify (·.warn
      s!"Cannot resolve the implementation {target} of the lambda created at {text}"))
  | some target =>
    match handle.kind with
    | .newInvokeSpecial => construct i context decl creation target
    | .invokeInterface | .invokeVirtual | .invokeSpecial =>
      match receiverOf? i context decl creation with
      | none =>
        let created ← Solve.siteText i.creation
        let called ← Solve.siteText site
        Reaction.solve (modify (·.warn
          s!"No receiver for the lambda created at {created} called at {called}"))
      | some (receiverContext, receiver) =>
        let receiver ← Solve.change (·.internVar receiverContext receiver)
        dispatchOn i ((← Reaction.solver).varObjects receiver)
        Reaction.modifyOwn (·.wait receiver i)
    | .invokeStatic => addCall i none target
    | .getField | .getStatic | .putField | .putStatic =>
      throw (.unsupportedDynamicCall (← Solve.siteText i.creation)
        s!"method handle kind {handle.kind.name}")

/-- Takes care of creation sites, and of calls on function values. -/
def claim (receiver : Option ContextObjectId) (context : ContextId) (site : CallSiteId) :
    Reaction State Bool := do
  match receiver with
  | none => return isCreation (← Solve.callSite site)
  | some receiver =>
    let pair ← Solve.known ((← Reaction.solver).elements.objects.get? receiver)
    let o ← Solve.objectAt receiver
    match o.origin with
    | .allocation .. => return false
    | .mock description creationSite =>
      if description != functionValue then return false
      let creation ← Solve.callSite creationSite
      let decl ← Solve.callSite site
      if creation.target.sub.name = decl.target.sub.name then
        let contextSite ← Solve.change (·.internSite context site)
        invoke ⟨contextSite, creationSite, pair.context⟩ context site decl creation
      return true

/-- The arguments of a call of a function value: the captured values, then the actual arguments,
without the one that serves as the receiver. -/
def arguments (callee : MethodDecl) (creation : InContext .callSite) (created : CallSite)
    (site : InContext .callSite) (decl : CallSite) : List (ContextId × VarId) :=
  let takesReceiver := !callee.isStatic && !callee.isConstructor
  let captured := if takesReceiver then created.args.drop 1 else created.args
  let actual := if takesReceiver && created.args.isEmpty then decl.args.drop 1 else decl.args
  captured.map (creation.context, ·) ++ actual.map (site.context, ·)

/-- Passes arguments and results along a call of a function value. -/
def linkCall (edge : CallEdge) : Solve Unit := do
  if let .extension tag origin := edge.kind then
    if tag = callTag then
      let creation ← Solve.siteAt origin
      let site ← Solve.siteAt edge.site
      let callee ← Solve.methodAt edge.callee
      let created ← Solve.callSite creation.entity
      let decl ← Solve.callSite site.entity
      let target ← Solve.methodDecl callee.entity
      ((arguments target creation created site decl).zip target.params).forM
        fun ((context, arg), param) =>
          Solve.addVarFlow context arg callee.context param .parameter
      if let (some result, false) := (decl.result, target.isConstructor) then
        target.returns.forM fun value =>
          Solve.addVarFlow callee.context value site.context result .ret

/-- Dispatches the waiting calls on the new objects of their receivers. -/
def redispatch (v : ContextVarId) (delta : Objects) : Reaction State Unit := do
  ((← Reaction.own).waitingOn v).forM fun i => dispatchOn i delta

def plugin : Plugin State where
  onMethod := createValues
  onContextMethod := placeValues
  onCall edge := linkCall edge
  onUnresolved := claim
  onObjects := redispatch

end PointsTo.Lambda
