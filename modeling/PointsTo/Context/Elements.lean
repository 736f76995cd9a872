import PointsTo.Context.Copies
import PointsTo.Heap.Basic

/-!
All that an analysis gives ids to: contexts, abstract objects, and entities in contexts.
-/
namespace PointsTo

structure Elements where
  contexts : ContextTable := .initial
  heap : Heap := ∅
  vars : CopyTable .var .contextVar := ∅
  objects : CopyTable .object .contextObject := ∅
  methods : CopyTable .method .contextMethod := ∅
  sites : CopyTable .callSite .contextSite := ∅

namespace Elements

instance : Inhabited Elements := ⟨{}⟩

def context (e : Elements) (id : ContextId) : Context := e.contexts.context id

def internContext (e : Elements) (c : Context) : ContextId × Elements :=
  let (id, contexts) := e.contexts.intern c
  (id, { e with contexts })

def internVar (e : Elements) (context : ContextId) (v : VarId) : ContextVarId × Elements :=
  let (id, vars) := e.vars.intern context v
  (id, { e with vars })

def internObject (e : Elements) (context : ContextId) (o : ObjectId) :
    ContextObjectId × Elements :=
  let (id, objects) := e.objects.intern context o
  (id, { e with objects })

def internMethod (e : Elements) (context : ContextId) (m : MethodId) :
    ContextMethodId × Elements :=
  let (id, methods) := e.methods.intern context m
  (id, { e with methods })

def internSite (e : Elements) (context : ContextId) (s : CallSiteId) : ContextSiteId × Elements :=
  let (id, sites) := e.sites.intern context s
  (id, { e with sites })

def allocate (e : Elements) (method : MethodId) (statement : Nat) (type : TypeId) :
    ObjectId × Elements :=
  let (id, heap) := e.heap.allocate method statement type
  (id, { e with heap })

def mock (e : Elements) (description : String) (site : CallSiteId) (type : TypeId)
    (container : Option MethodId) : ObjectId × Elements :=
  let (id, heap) := e.heap.mock description site type container
  (id, { e with heap })

/-- The abstract object of an object in a context. -/
def object? (e : Elements) (o : ContextObjectId) : Option AbstractObject := do
  e.heap.get? (← e.objects.get? o).entity

def objectType? (e : Elements) (o : ContextObjectId) : Option TypeId :=
  (e.object? o).map AbstractObject.type

end Elements

end PointsTo
