import PointsTo.Call.Graph

/-!
The call graph as a Graphviz document: a node for every reached method, and an edge for every call,
labelled with its call site.
-/
namespace PointsTo.CallGraph

/-- An attribute that shows a text. -/
def label (text : String) : String :=
  "[ label = \"" ++ String.ofList (text.toList.flatMap fun c =>
    if c = '"' then ['\\', '"'] else [c]) ++ "\"]"

def methodText? (p : Catalog) (e : Elements) (m : ContextMethodId) : Option String := do
  let copy ← e.methods.get? m
  let signature ← p.signature? copy.entity
  return (e.context copy.context).render ++ ":" ++ signature

def nodeLine? (g : CallGraph) (p : Catalog) (e : Elements) (n : Id .reached) : Option String := do
  let text ← methodText? p e (← g.reached.get? n)
  return s!"    {n.index} {label text}\n"

def edgeLine? (g : CallGraph) (p : Catalog) (e : Elements) (c : Call) : Option String := do
  let source ← g.reached.find? c.caller
  let target ← g.reached.find? c.edge.callee
  let site ← p.siteText? (← e.sites.get? c.edge.site).entity
  return s!"    {source.index} -> {target.index} {label site}\n"

def dot? (g : CallGraph) (p : Catalog) (e : Elements) : Option String := do
  let nodes ← g.reached.ids.mapM (g.nodeLine? p e)
  let edges ← g.calls.toList.mapM (g.edgeLine? p e)
  return "digraph \x7b\n" ++ String.join nodes ++ String.join edges ++ "\x7d\n"

end PointsTo.CallGraph
