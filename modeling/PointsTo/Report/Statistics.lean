import PointsTo.Groups
import PointsTo.Report.Relation
import PointsTo.Text.Quotient

/-!
The size of a result in numbers.
-/
namespace PointsTo

/-- How many pointers have objects, and how many objects they have together. -/
structure Extent where
  pointers : Nat
  relations : Nat
  deriving DecidableEq, Repr

structure Statistics where
  /-- Methods reached in any context. -/
  methods : Nat
  /-- Methods reached, counted once for every context. -/
  contextMethods : Nat
  calls : Nat
  contextSites : Nat
  objects : Nat
  /-- Pointers in their contexts. -/
  contextual : Extent
  /-- Variables, over all contexts. -/
  merged : Extent
  deriving DecidableEq, Repr

namespace Extent

/-- The average number of objects of a pointer that has any. -/
def average (e : Extent) : String := Text.quotient e.relations e.pointers

def lines (e : Extent) : List String :=
  [s!"#Pointers: {e.pointers}",
    s!"#Points-to relations: {e.relations}",
    s!"#Avg points-to size: {e.average}"]

end Extent

namespace Statistics

def extent (s : Solver) : Extent :=
  ⟨s.inhabited.length, s.inhabited.foldl (fun n (_, objects) => n + objects.count) 0⟩

def mergedExtent (pairs : List (VarId × ObjectId)) : Extent :=
  ⟨(groups pairs).length, pairs.length⟩

def of? (s : Solver) : Option Statistics := do
  let pairs ← s.pairs?
  return {
    methods := s.reachedMethods.size
    contextMethods := s.calls.reached.size
    calls := s.calls.calls.size
    contextSites := s.elements.sites.size
    objects := s.elements.heap.size
    contextual := extent s
    merged := mergedExtent pairs }

def frame : String := "".pushn '#' 58

def rule : String := "".pushn '-' 58

def lines (t : Statistics) : List String :=
  [frame,
    "Call Graph Statistics: ",
    s!"#Reachable methods (CI): {t.methods}",
    s!"#Reachable methods (CS): {t.contextMethods}",
    s!"#Call graph edges (CS): {t.calls}",
    s!"#Call sites (CS): {t.contextSites}",
    s!"#Abstract objects: {t.objects}",
    rule,
    "CS Points-to Statistics: "]
  ++ t.contextual.lines ++ ["CI Points-to Statistics: "] ++ t.merged.lines ++ [frame]

def text (t : Statistics) : String := String.join (t.lines.map (· ++ "\n"))

end Statistics

end PointsTo
