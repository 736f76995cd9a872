import PointsTo.Context.Elements
import PointsTo.Context.Sensitivity

/-!
Selectors choose the context of a callee when a call is found, and the context of an object when it
is allocated. Contexts of callees have at most as many elements as the selector's limit, contexts
of objects one less.
-/
namespace PointsTo

inductive Selector
  /-- Everything lives in the empty context. -/
  | insensitive
  /-- A callee is told apart by the most recent call sites. -/
  | callSite (k : Nat)
  /-- A callee is told apart by its receiver and the receiver's context. -/
  | object (k : Nat)
  /-- The same, a receiver being known only by the class whose method allocated it. -/
  | type (k : Nat)
  deriving DecidableEq, Repr

/-- A selected context: one that has an id already, or one that may be new. -/
inductive Selection
  | known (id : ContextId)
  | built (context : Context)
  deriving DecidableEq, Repr

namespace Elements

/-- The id of a selected context. -/
def settle (e : Elements) : Selection → ContextId × Elements
  | .known id => (id, e)
  | .built context => e.internContext context

end Elements

namespace Selector

def ofSensitivity (depth : Nat) : Sensitivity → Selector
  | .insensitive => insensitive
  | .callSite => callSite depth
  | .object => object depth
  | .type => type depth

/-- The greatest length of a selected context. -/
def limit : Selector → Nat
  | insensitive => 0
  | callSite k | object k | type k => k

/-- The entity of an id that must have one. -/
def known {α : Type} (entity : Option α) : Except Fault α :=
  match entity with
  | some a => pure a
  | none => throw .unknownId

def pushed (e : Elements) (k : Nat) (element : ContextElement) (base : ContextId) :
    Except Fault Selection :=
  Selection.built <$> Context.extend k element (e.context base)

/-- The context of the callee of a call whose target does not depend on a receiver. -/
def calleeContext (s : Selector) (e : Elements) (site : ContextSiteId) :
    Except Fault Selection :=
  match s with
  | insensitive => return .known ContextTable.emptyId
  | callSite k => do
    let c ← known (e.sites.get? site)
    pushed e k (.callSite c.entity) c.context
  | object _ | type _ => do return .known (← known (e.sites.get? site)).context

/-- The class that stands for an object in a context: the one whose method allocated it, or the
object's own when there is no such method. -/
def allocatorType? (p : Catalog) (o : AbstractObject) : Option TypeId :=
  match o.container with
  | some m => p.methods[m]?.map fun d => d.ref.owner
  | none => some o.type

/-- The context of the callee of a call dispatched on a receiver. -/
def dispatchContext (s : Selector) (p : Catalog) (e : Elements) (site : ContextSiteId)
    (receiver : ContextObjectId) : Except Fault Selection :=
  match s with
  | insensitive | callSite _ => s.calleeContext e site
  | object k => do
    let r ← known (e.objects.get? receiver)
    pushed e k (.object r.entity) r.context
  | type k => do
    let r ← known (e.objects.get? receiver)
    let type ← known ((e.heap.get? r.entity).bind (allocatorType? p))
    pushed e k (.type type) r.context

/-- The context of an object allocated in a method. -/
def heapContext (s : Selector) (e : Elements) (method : ContextMethodId) :
    Except Fault Selection :=
  if s.limit ≤ 1 then return .known ContextTable.emptyId
  else do
    let m ← known (e.methods.get? method)
    let context := e.context m.context
    if context.length < s.limit then return .known m.context
    else return .built (context.take (s.limit - 1))

end Selector

end PointsTo
