import PointsTo.Solver.State

/-!
The ways to add facts to the state of an analysis. Everything that is known only grows, and a
pointer that gains objects is put on the work list.
-/
namespace PointsTo

open Facts

namespace Solver

/-! ### Ids -/

def withElements {α : Type} (s : Solver) (f : Elements → α × Elements) : α × Solver :=
  let (a, elements) := f s.elements
  (a, { s with elements })

def internVar (s : Solver) (context : ContextId) (v : VarId) : ContextVarId × Solver :=
  s.withElements (·.internVar context v)

def internObject (s : Solver) (context : ContextId) (o : ObjectId) : ContextObjectId × Solver :=
  s.withElements (·.internObject context o)

def internMethod (s : Solver) (context : ContextId) (m : MethodId) : ContextMethodId × Solver :=
  s.withElements (·.internMethod context m)

def internSite (s : Solver) (context : ContextId) (site : CallSiteId) : ContextSiteId × Solver :=
  s.withElements (·.internSite context site)

def allocate (s : Solver) (m : MethodId) (statement : Nat) (type : TypeId) : ObjectId × Solver :=
  s.withElements (·.allocate m statement type)

def mock (s : Solver) (description : String) (site : CallSiteId) (type : TypeId)
    (container : Option MethodId) : ObjectId × Solver :=
  s.withElements (·.mock description site type container)

def internNode (s : Solver) (p : Pointer) : NodeId × Solver :=
  let (n, flows) := s.flows.internNode p
  (n, { s with flows })

/-! ### Objects -/

/-- Puts a node on the work list when its set has grown. -/
def scheduleIf (s : Solver) (grew : Bool) (n : NodeId) : Solver :=
  if grew then { s with worklist := s.worklist.push n } else s

def addToNode (s : Solver) (n : NodeId) (o : ContextObjectId) : Solver :=
  let (grew, points) := s.points.add n o
  { s with points }.scheduleIf grew n

def uniteInto (s : Solver) (n : NodeId) (objects : Objects) : Solver :=
  let (grew, points) := s.points.union n objects
  { s with points }.scheduleIf grew n

def addObject (s : Solver) (p : Pointer) (o : ContextObjectId) : Solver :=
  let (n, s) := s.internNode p
  s.addToNode n o

def addVarObject (s : Solver) (v : ContextVarId) (o : ContextObjectId) : Solver :=
  s.addObject (.var v) o

/-- Adds an abstract object in its context to the set of a variable in a context. -/
def addObjectIn (s : Solver) (context : ContextId) (v : VarId) (heapContext : ContextId)
    (o : ObjectId) : Solver :=
  let (v, s) := s.internVar context v
  let (o, s) := s.internObject heapContext o
  s.addVarObject v o

/-- Adds a set of objects to a variable in a context. -/
def addObjectsIn (s : Solver) (context : ContextId) (v : VarId) (objects : Objects) : Solver :=
  if objects.isEmpty then s
  else
    let (v, s) := s.internVar context v
    let (n, s) := s.internNode (.var v)
    s.uniteInto n objects

/-! ### Flows -/

/-- Whether an object passes an edge. -/
def passes (s : Solver) (kind : FlowKind) (o : ContextObjectId) : Bool :=
  match kind with
  | .cast type => (s.elements.objectType? o).any fun t => s.program.isSubtype t type
  | _ => true

/-- The objects of a set that pass an edge. -/
def passing (s : Solver) (kind : FlowKind) (objects : Objects) : Objects :=
  match kind with
  | .cast _ => objects.filter (s.passes kind)
  | _ => objects

/-- Whether it can be told if an object passes an edge: a cast has to know the types. -/
def decides (s : Solver) (kind : FlowKind) (o : ContextObjectId) : Bool :=
  match kind with
  | .cast type => (s.elements.objectType? o).any fun t =>
      t == type || t.index < s.program.types.size && type.index < s.program.types.size
  | _ => true

/-! ### Calls and events -/

def queueCall (s : Solver) (edge : CallEdge) : Solver :=
  { s with callQueue := s.callQueue.push edge }

def announce (s : Solver) (e : Event) : Solver := { s with events := s.events.push e }

/-! ### Results -/

def store (s : Solver) (key : String) (finding : Finding) : Solver :=
  { s with findings := (key, finding) :: s.findings }

def warn (s : Solver) (text : String) : Solver :=
  { s with log := s.log.push ⟨.warning, text⟩ }

end Solver

namespace Solve

def known {α : Type} (entity : Option α) : Solve α :=
  match entity with
  | some a => pure a
  | none => throw .unknownId

/-- Changes the state and gives a value. -/
def change {α : Type} (f : Solver → α × Solver) : Solve α := modifyGet f

/-- Passes objects along an edge into its target. -/
def propagate (target : NodeId) (kind : FlowKind) (objects : Objects) : Solve Unit := do
  let s ← get
  if objects.toList.all (s.decides kind) then
    set (s.uniteInto target (s.passing kind objects))
  else throw .unknownId

/-- Adds an edge to the flow graph, and passes on what its source has passed on before. What the
source has still to pass on follows when its turn comes. -/
def addFlow (source target : Pointer) (kind : FlowKind) : Solve Unit := do
  let source ← change (·.internNode source)
  let target ← change (·.internNode target)
  let fresh ← change fun s =>
    let (id, flows) := s.flows.add ⟨source, target, kind⟩
    (id.isSome, { s with flows })
  if fresh then propagate target kind ((← get).points.propagatedOf source)

/-- Links two variables, each in its context. -/
def addVarFlow (sourceContext : ContextId) (source : VarId) (targetContext : ContextId)
    (target : VarId) (kind : FlowKind) : Solve Unit := do
  let source ← change (·.internVar sourceContext source)
  let target ← change (·.internVar targetContext target)
  addFlow (.var source) (.var target) kind

/-! ### Contexts, selected as the analysis selects them -/

def settle (select : Solver → Except Fault Selection) : Solve ContextId := do
  let selection ← .mk (pure (select (← get)))
  change fun s => s.withElements (·.settle selection)

def calleeContext (site : ContextSiteId) : Solve ContextId :=
  settle fun s => s.selector.calleeContext s.elements site

def dispatchContext (site : ContextSiteId) (receiver : ContextObjectId) : Solve ContextId :=
  settle fun s => s.selector.dispatchContext s.catalog s.elements site receiver

def heapContext (m : ContextMethodId) : Solve ContextId :=
  settle fun s => s.selector.heapContext s.elements m

/-! ### Lookups -/

def catalog : Solve Catalog := return (← get).catalog

def methodDecl (m : MethodId) : Solve MethodDecl := do known (← catalog).methods[m]?

def callSite (site : CallSiteId) : Solve CallSite := do known (← catalog).callSites[site]?

def siteText (site : CallSiteId) : Solve String := do known ((← catalog).siteText? site)

def varAt (v : ContextVarId) : Solve (InContext .var) := do known ((← get).elements.vars.get? v)

def methodAt (m : ContextMethodId) : Solve (InContext .method) := do
  known ((← get).elements.methods.get? m)

def siteAt (site : ContextSiteId) : Solve (InContext .callSite) := do
  known ((← get).elements.sites.get? site)

def objectAt (o : ContextObjectId) : Solve AbstractObject := do known ((← get).elements.object? o)

end Solve

end PointsTo
