import PointsTo.Context.Elements

/-!
The call graph: the methods reached so far, and the calls between them. There is at most one call
from a call site to a callee, both taken in their contexts.
-/
namespace PointsTo

inductive CallEdgeKind
  | static
  | special
  | virtual
  | interface
  /-- A call that a plugin contributes: the name of the mechanism, and the call site that the call
  derives from. -/
  | extension (tag : String) (origin : ContextSiteId)
  deriving DecidableEq, Repr

namespace CallEdgeKind

def isExtension (k : CallEdgeKind) (tag : String) : Bool :=
  match k with
  | extension t _ => t == tag
  | _ => false

end CallEdgeKind

structure CallEdge where
  site : ContextSiteId
  callee : ContextMethodId
  kind : CallEdgeKind
  deriving DecidableEq, Repr

/-- A call together with the method that contains its call site. -/
structure Call where
  caller : ContextMethodId
  edge : CallEdge
  deriving DecidableEq, Repr

def Call.ends (c : Call) : ContextSiteId × ContextMethodId := (c.edge.site, c.edge.callee)

/-- For each key, the numbers of the calls with that key, the latest first. -/
structure CallIndex {kind : Entity} (key : Call → Id kind) (calls : Table .call Call.ends) where
  filed : Index (Id kind) (List (Id .call))
  filed_eq : ∀ k, filed.getD k [] = (calls.idsWhere fun c => key c == k).reverse

namespace CallIndex

variable {kind : Entity} {key : Call → Id kind} {calls : Table .call Call.ends}

def empty : CallIndex key ∅ where
  filed := ∅
  filed_eq _ := by simp [Table.idsWhere]

instance : EmptyCollection (CallIndex key ∅) := ⟨empty⟩

/-- The calls with a key, the latest first. -/
def callsOf (t : CallIndex key calls) (k : Id kind) : List Call :=
  (t.filed.getD k []).filterMap calls.get?

/-- Files a call that has just been added. -/
def push (t : CallIndex key calls) (c : Call) (fresh : calls.positions[c.ends]? = none) :
    CallIndex key (calls.push c fresh) where
  filed := t.filed.insert (key c) (⟨calls.size⟩ :: t.filed.getD (key c) [])
  filed_eq k := by
    rw [Std.TreeMap.getD_insert, Table.idsWhere_push, List.reverse_append]
    by_cases hk : key c = k
    · subst hk
      simp [t.filed_eq]
    · simp [hk, t.filed_eq]

end CallIndex

structure CallGraph where
  /-- The methods in the order in which they were reached. -/
  reached : DistinctTable .reached ContextMethodId
  /-- The calls in the order in which they were found. -/
  calls : Table .call Call.ends
  bySite : CallIndex (fun c => c.edge.site) calls
  byCaller : CallIndex Call.caller calls
  byCallee : CallIndex (fun c => c.edge.callee) calls

namespace CallGraph

def empty : CallGraph where
  reached := ∅
  calls := ∅
  bySite := ∅
  byCaller := ∅
  byCallee := ∅

instance : EmptyCollection CallGraph := ⟨empty⟩

instance : Inhabited CallGraph := ⟨∅⟩

def isReached (g : CallGraph) (m : ContextMethodId) : Bool := g.reached.contains m

/-- Marks a method as reached, with whether it was not. -/
def reach (g : CallGraph) (m : ContextMethodId) : Bool × CallGraph :=
  let (id, reached) := g.reached.add m
  (id.isSome, { g with reached })

/-- Records a call between two methods, which is not recorded yet. -/
def record (g : CallGraph) (c : Call) (fresh : g.calls.positions[c.ends]? = none) : CallGraph where
  reached := g.reached
  calls := g.calls.push c fresh
  bySite := g.bySite.push c fresh
  byCaller := g.byCaller.push c fresh
  byCallee := g.byCallee.push c fresh

/-- Adds a call, with whether it is the first one between its call site and its callee. Both
methods count as reached then. -/
def add (g : CallGraph) (caller : ContextMethodId) (edge : CallEdge) : Bool × CallGraph :=
  let call : Call := ⟨caller, edge⟩
  match h : g.calls.positions[call.ends]? with
  | some _ => (false, g)
  | none => (true, (((g.record call h).reach caller).2.reach edge.callee).2)

def edges (g : CallGraph) : List CallEdge := g.calls.toList.map Call.edge

/-- The callees of a call site, the first one first. -/
def calleesOfSite (g : CallGraph) (s : ContextSiteId) : List ContextMethodId :=
  (g.bySite.callsOf s).reverse.map fun c => c.edge.callee

/-- The calls that enter a method, the last one first. -/
def callersOf (g : CallGraph) (m : ContextMethodId) : List CallEdge :=
  (g.byCallee.callsOf m).map Call.edge

/-- The calls that leave a method, the last one first. -/
def calleesOf (g : CallGraph) (m : ContextMethodId) : List CallEdge :=
  (g.byCaller.callsOf m).map Call.edge

end CallGraph

end PointsTo
