import PointsTo.Context.Elements
import PointsTo.Fault

/-!
The flow graph: its nodes are pointers, and an edge says that every object of its source, filtered
where the edge is a cast, is also one of its target.

Edges leave a node in the reverse order of their insertion.
-/
namespace PointsTo

/-- Whatever owns a set of objects. Static fields are told apart by no context. -/
inductive Pointer
  | var (v : ContextVarId)
  | field (object : ContextObjectId) (field : FieldId)
  /-- All cells of an array. -/
  | array (object : ContextObjectId)
  | static (field : FieldId)
  deriving DecidableEq, Repr

namespace Pointer

/-- The kind of a pointer, and two numbers. -/
def numbers : Pointer → Nat × Nat × Nat
  | var v => (0, v.index, 0)
  | field o f => (1, o.index, f.index)
  | array o => (2, o.index, 0)
  | static f => (3, f.index, 0)

theorem numbers_injective {a b : Pointer} (h : a.numbers = b.numbers) : a = b := by
  cases a <;> cases b <;> simp_all [numbers, Id.ext_iff]

instance : Coded Pointer := .along numbers numbers_injective

end Pointer

/-- A pointer as it is shown to users. -/
def Pointer.text? (p : Catalog) (e : Elements) : Pointer → Option String
  | var v => do
    let copy ← e.vars.get? v
    let decl ← p.vars[copy.entity]?
    let method ← p.signature? decl.method
    let context := (e.context copy.context).render
    return s!"{context}:{method}/{decl.name}"
  | field o f => do
    let field ← p.fieldText? f
    return s!"{o.index}.{field}"
  | array o => some s!"{o.index}[*]"
  | static f => p.fieldText? f

inductive FlowKind
  | assign
  /-- Lets through the objects of a subtype only. -/
  | cast (type : TypeId)
  | fieldLoad
  | fieldStore
  | arrayLoad
  | arrayStore
  | staticLoad
  | staticStore
  /-- From an argument or a receiver to a parameter. -/
  | parameter
  /-- From a returned variable to the result of a call. -/
  | ret
  deriving DecidableEq, Repr

namespace FlowKind

/-- The number of a kind, and the type of a cast. -/
def numbers : FlowKind → Nat × Nat
  | assign => (0, 0)
  | cast type => (1, type.index)
  | fieldLoad => (2, 0)
  | fieldStore => (3, 0)
  | arrayLoad => (4, 0)
  | arrayStore => (5, 0)
  | staticLoad => (6, 0)
  | staticStore => (7, 0)
  | parameter => (8, 0)
  | ret => (9, 0)

theorem numbers_injective {a b : FlowKind} (h : a.numbers = b.numbers) : a = b := by
  cases a <;> cases b <;> simp_all [numbers, Id.ext_iff]

instance : Coded FlowKind := .along numbers numbers_injective

end FlowKind

structure Flow where
  source : NodeId
  target : NodeId
  kind : FlowKind
  deriving DecidableEq, Repr

instance : Coded Flow :=
  .along (fun f => (f.source, f.target, f.kind)) fun {a b} h => by cases a; cases b; simp_all

structure FlowGraph where
  nodes : DistinctTable .node Pointer := ∅
  edges : DistinctTable .flow Flow := ∅
  outgoing : Index NodeId (List (NodeId × FlowKind)) := ∅

namespace FlowGraph

instance : Inhabited FlowGraph := ⟨{}⟩

def internNode (g : FlowGraph) (p : Pointer) : NodeId × FlowGraph :=
  let (id, nodes) := g.nodes.intern p
  (id, { g with nodes })

def node? (g : FlowGraph) (p : Pointer) : Option NodeId := g.nodes.find? p

def pointer? (g : FlowGraph) (n : NodeId) : Option Pointer := g.nodes.get? n

/-- The edges that leave a node, the last one first. -/
def out (g : FlowGraph) (n : NodeId) : List (NodeId × FlowKind) := g.outgoing.getD n []

/-- Adds an edge, and gives its id when it is new. The fields are taken apart first, so that the
tables grow in place. -/
def add (g : FlowGraph) (f : Flow) : Option (Id .flow) × FlowGraph :=
  match g.edges.add f with
  | (none, edges) => (none, { g with edges })
  | (some id, edges) =>
    let older := g.outgoing.getD f.source []
    (some id,
      { g with edges, outgoing := g.outgoing.insert f.source ((f.target, f.kind) :: older) })

/-- The same for an edge between nodes that may not exist. -/
def connect (g : FlowGraph) (f : Flow) : Except Fault (Option (Id .flow) × FlowGraph) :=
  if f.source.index < g.nodes.size ∧ f.target.index < g.nodes.size then pure (g.add f)
  else throw .unknownId

end FlowGraph

end PointsTo
