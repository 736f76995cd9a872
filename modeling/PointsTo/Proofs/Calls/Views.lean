import PointsTo.Proofs.Answers
import PointsTo.Proofs.Calls.Roots
import PointsTo.Proofs.Termination.Runs

/-!
The call graph without contexts. It can be asked from the call sites, from the callees, from the callers
and for the methods that are reached. The answers are listings of one relation, the links between call
sites and methods, whichever index a question is looked up in.
-/
namespace PointsTo

namespace Solver

variable {s : Solver}

/-- The answers about calls that leave contexts out agree with each other. -/
structure ViewsAgree (s : Solver) : Prop where
  /-- Every call links a call site to a method. -/
  linked : ∀ e ∈ s.calls.edges, ∃ site m, s.siteOf? e.site = some site ∧
    s.methodOf? e.callee = some m
  callers : ∀ m, ∃ l, s.callersOf? m = some l ∧ l.Pairwise (· < ·) ∧
    ∀ site, site ∈ l ↔ s.Links site m
  calleesOfSite : ∀ site, ∃ l, s.calleesOfSite? site = some l ∧ l.Pairwise (· < ·) ∧
    ∀ m, m ∈ l ↔ s.Links site m
  callees : ∀ caller, ∃ l, s.calleesOf? caller = some l ∧ l.Pairwise (· < ·) ∧
    ∀ m, m ∈ l ↔ ∃ site decl, s.program.callSites[site]? = some decl ∧ decl.container = caller ∧
      s.Links site m
  /-- Every method that is reached in a context is reached. -/
  listed : ∀ cm ∈ s.calls.reached.toList, ∃ m, s.methodOf? cm = some m
  methods : s.reachableMethods.Pairwise (· < ·) ∧ ∀ m, m ∈ s.reachableMethods ↔
    ∃ cm ∈ s.calls.reached.toList, s.methodOf? cm = some m
  isReachable : ∀ m, s.isReachable m = true ↔ m ∈ s.reachableMethods
  /-- A link leads from a reached method to a reached method. -/
  ends : ∀ site m, s.Links site m → m ∈ s.reachableMethods ∧
    ∃ decl, s.program.callSites[site]? = some decl ∧ decl.container ∈ s.reachableMethods

theorem mem_reachableMethods_iff {m : MethodId} :
    m ∈ s.reachableMethods ↔ m ∈ s.reachedMethods := by
  rw [reachableMethods, mem_ascending, Std.TreeSet.mem_toList]

namespace Tallied

variable (h : s.Tallied)
include h

theorem exists_methodOf? {cm : ContextMethodId} (reached : s.calls.Reaches cm) :
    ∃ m ∈ s.reachableMethods, s.methodOf? cm = some m := by
  obtain ⟨pair, place, mem⟩ := h.complete cm reached
  refine ⟨pair.entity, mem_reachableMethods_iff.2 mem, ?_⟩
  simp [methodOf?, place]

theorem mem_reachableMethods_of {cm : ContextMethodId} {m : MethodId} (reached : s.calls.Reaches cm)
    (hm : s.methodOf? cm = some m) : m ∈ s.reachableMethods := by
  obtain ⟨m', mem, hm'⟩ := h.exists_methodOf? reached
  rwa [← Option.some.inj (hm'.symm.trans hm)]

theorem mem_reachableMethods {m : MethodId} :
    m ∈ s.reachableMethods ↔ ∃ cm ∈ s.calls.reached.toList, s.methodOf? cm = some m := by
  constructor
  · intro mem
    obtain ⟨cm, pair, reached, place, same⟩ := h.sound m (mem_reachableMethods_iff.1 mem)
    refine ⟨cm, CallGraph.mem_reached.2 reached, ?_⟩
    simp [methodOf?, place, same]
  · rintro ⟨cm, reached, hm⟩
    exact h.mem_reachableMethods_of (CallGraph.mem_reached.1 reached) hm

end Tallied

namespace Rooted

variable (h : s.Rooted)
include h

/-- The caller of a recorded call is the method that contains its call site. -/
theorem exists_container {call : Call} (recorded : s.calls.Records call) :
    ∃ site decl, s.siteOf? call.edge.site = some site ∧
      s.program.callSites[site]? = some decl ∧ s.methodOf? call.caller = some decl.container := by
  obtain ⟨pair, decl, hsite, declared, place⟩ := h.encloses call recorded
  refine ⟨pair.entity, decl, ?_, declared, ?_⟩
  · simp [siteOf?, hsite]
  · simp [methodOf?, place]

theorem labelled (tallied : s.Tallied) : s.Labelled where
  site call recorded := by
    obtain ⟨site, -, hsite, -⟩ := h.exists_container recorded
    exact ⟨site, hsite⟩
  callee call recorded := by
    obtain ⟨m, -, hm⟩ := tallied.exists_methodOf? (h.ends call recorded).2
    exact ⟨m, hm⟩

/-- The calls that leave a method in its contexts are those of the call sites that it contains. -/
theorem calleesOf? (tallied : s.Tallied) (caller : MethodId) :
    ∃ l, s.calleesOf? caller = some l ∧ l.Pairwise (· < ·) ∧
      ∀ m, m ∈ l ↔ ∃ site decl, s.program.callSites[site]? = some decl ∧
        decl.container = caller ∧ s.Links site m := by
  have known : ∀ e ∈ (s.elements.methods.copiesOf caller).flatMap s.calls.calleesOf,
      ∃ m, s.methodOf? e.callee = some m := by
    intro e found
    obtain ⟨cm, -, found⟩ := List.mem_flatMap.1 found
    exact (h.labelled tallied).callee _ (CallGraph.mem_calleesOf.1 found)
  obtain ⟨l, found, ordered, mem⟩ := exists_ascending known
  refine ⟨l, found, ordered, fun m => ?_⟩
  simp only [mem, List.mem_flatMap, mem_copiesOf_method, CallGraph.mem_calleesOf]
  constructor
  · rintro ⟨e, ⟨cm, hcm, recorded⟩, hm⟩
    obtain ⟨site, decl, hsite, declared, container⟩ := h.exists_container recorded
    have around := Option.some.inj (container.symm.trans hcm)
    exact ⟨site, decl, declared, around, e, CallGraph.mem_edges.2 ⟨_, recorded, rfl⟩, hsite, hm⟩
  · rintro ⟨site, decl, declared, rfl, e, found, hsite, hm⟩
    obtain ⟨call, recorded, rfl⟩ := CallGraph.mem_edges.1 found
    obtain ⟨site', decl', hsite', declared', container⟩ := h.exists_container recorded
    -- the call site of the link is the one of the call
    cases hsite.symm.trans hsite'
    cases declared.symm.trans declared'
    exact ⟨call.edge, ⟨call.caller, container, recorded⟩, hm⟩

theorem viewsAgree (tallied : s.Tallied) : s.ViewsAgree := by
  have labelled := h.labelled tallied
  constructor
  case linked =>
    intro e found
    obtain ⟨call, recorded, rfl⟩ := CallGraph.mem_edges.1 found
    obtain ⟨site, hsite⟩ := labelled.site call recorded
    obtain ⟨m, hm⟩ := labelled.callee call recorded
    exact ⟨site, m, hsite, hm⟩
  case callers => exact labelled.callersOf?
  case calleesOfSite => exact labelled.calleesOfSite?
  case callees => exact h.calleesOf? tallied
  case listed =>
    intro cm reached
    obtain ⟨m, -, hm⟩ := tallied.exists_methodOf? (CallGraph.mem_reached.1 reached)
    exact ⟨m, hm⟩
  case methods => exact ⟨pairwise_ascending _, fun m => tallied.mem_reachableMethods⟩
  case isReachable =>
    intro m
    rw [Solver.isReachable, mem_reachableMethods_iff, Std.TreeSet.mem_iff_contains]
  case ends =>
    rintro site m ⟨e, found, hsite, hm⟩
    obtain ⟨call, recorded, rfl⟩ := CallGraph.mem_edges.1 found
    obtain ⟨caller, callee⟩ := h.ends call recorded
    obtain ⟨site', decl, hsite', declared, container⟩ := h.exists_container recorded
    cases hsite.symm.trans hsite'
    exact ⟨tallied.mem_reachableMethods_of callee hm, decl, declared,
      tallied.mem_reachableMethods_of caller container⟩

end Rooted

end Solver

open Analysis

/-- The answers agree in every state that can be seen from outside, whatever public plugins are on. -/
theorem Analysis.Shows.viewsAgree {σ : Type} {plugins : List (Plugin σ)}
    (guarded : ∀ plugin ∈ plugins, plugin.Public) {p : Program} {sel : Selector}
    {contexts : ContextTable} {own : σ} {s : Solver}
    (shown : Shows (.all plugins) (own, .initial p sel contexts) s) :
    s.program = p ∧ s.ViewsAgree := by
  obtain ⟨program, rooted⟩ := shown.rooted guarded
  have tallied := maintained_tallied.shows (.all guarded) (by exact Solver.Tallied.initial) shown
  exact ⟨program, rooted.viewsAgree tallied⟩

/-- The call graph without contexts is one relation. Take any program and any selector, function values
and taint tracking on or off, and a run that finishes, and say that a call site is linked to a method
if some call leads from the one to the other in whatever contexts. A call site is among the callers of
a method if and only if it is linked to the method, and if and only if the method is among its callees.
The callees of a method are the methods that the call sites in it are linked to. The reachable methods
are those that are reached in some context, and they include the method around the call site and the
callee of every link. And all these answers are given, strictly ascending. -/
theorem call_views_agree (c : Configuration) (p : Program) (contexts : ContextTable) {fuel : Nat}
    {r : Run Extensions} (ran : analyze fuel (.all c.plugins) {} (.initial p c.selector contexts) = r)
    (finished : r.verdict = .finished) : r.solver.program = p ∧ r.solver.ViewsAgree := by
  subst ran
  exact (shows_of_finished (.all c.public_plugins) finished).viewsAgree c.public_plugins

open Examples in
/-- A method that calls itself in three contexts has two call sites that call it. -/
theorem call_views_agree_cycled : (cycledRun 60).verdict = .finished ∧
    (cycledRun 60).solver.calls.edges.length = 4 ∧
    (cycledRun 60).solver.callersOf? ⟨0⟩ = some [⟨0⟩, ⟨1⟩] ∧
    (cycledRun 60).solver.calleesOf? ⟨1⟩ = some [⟨0⟩] ∧ (cycledRun 60).solver.ViewsAgree := by
  obtain ⟨finished, length, callers, callees⟩ : (cycledRun 60).verdict = .finished ∧
      (cycledRun 60).solver.calls.edges.length = 4 ∧
      (cycledRun 60).solver.callersOf? ⟨0⟩ = some [⟨0⟩, ⟨1⟩] ∧
      (cycledRun 60).solver.calleesOf? ⟨1⟩ = some [⟨0⟩] := by
    decide +kernel
  obtain ⟨-, agree⟩ := call_views_agree cycled cycleProgram leftBehind rfl finished
  exact ⟨finished, length, callers, callees, agree⟩

end PointsTo
