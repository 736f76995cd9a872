import PointsTo.Proofs.Taint.Closure
import PointsTo.Proofs.Taint.Sinks
import PointsTo.Proofs.Taint.Sources

/-!
Which flows are reported: all flows of tainted values into calls of sinks and no others, and every one
of them starts at a call of a source.
-/
namespace PointsTo

open Facts

/-- A call site calls a method, in some contexts. -/
def Solution.Targets (F : Solution) (site : CallSiteId) (m : MethodId) : Prop :=
  ∃ via c c', F.calls via c site c' m

/-- What a recorded call of a source means. -/
theorem Solver.Sourced.targets {s : Solver} {rules : Taint.Rules} (h : s.Sourced rules)
    (legible : s.Legible) {q : CallSiteId} (tainted : s.Tainted q) :
    ∃ rule ∈ rules.sources, s.facts.Targets q rule.method := by
  obtain ⟨call, recorded, site, callee, hs, hm, rfl, rule, mem, same⟩ := h q tainted
  obtain ⟨via, c, site', c', m, hvia, hs', hm'⟩ := legible.calls call recorded
  obtain ⟨_, found, -⟩ := Elements.copy?_eq_some_iff.1 hs'
  cases hs.symm.trans found
  obtain ⟨_, found', -⟩ := Elements.copy?_eq_some_iff.1 hm'
  cases hm.symm.trans found'
  exact ⟨rule, mem, via, c, c', call, recorded, hvia, hs', same ▸ hm'⟩

namespace Taint

/-- A delivered value is one that has been made. -/
theorem tainted_of_delivers {s : Solver} {f : TaintFlow} (h : s.facts.Delivers s.program f) :
    s.Tainted f.source := by
  obtain ⟨decl, arg, -, -, c, w, points, tainted⟩ := h
  obtain ⟨-, x, -, hw, -⟩ := points
  obtain ⟨o, -, heap⟩ := Elements.value?_eq_some_iff.1 hw
  exact ⟨o, w.object, heap, tainted⟩

/-- Reported flows are exactly the sink hits. When a run with taint tracking ends without a fault, for
whatever selector and rules, with or without function values, its result is legible, and a list of
flows is left, in strictly ascending order. A flow is in the list if and only if its sink call calls
the method of a sink rule for its argument, and this argument may be a tainted value of its source
call. Every tainted value that has been made belongs to a call of a source, so that reported flows
lead from calls of sources to calls of sinks. -/
theorem flows_exact {ds : List Declaration} {p : Program}
    (built : (Builder.ofDeclarations ds).build = .ok p) {c : Configuration} {rules : Rules}
    (on : c.rules = some rules) {contexts : ContextTable} {fuel : Nat} {r : Run Extensions}
    (ran : analyze fuel (.all c.plugins) {} (.initial p c.selector contexts) = r)
    (finished : r.verdict = .finished) :
    r.solver.Legible ∧
    (∀ o a q, r.solver.elements.heap.get? o = some a → sourceCall? a = some q →
      ∃ rule ∈ rules.sources, r.solver.facts.Targets q rule.method) ∧
    ∃ flows, r.solver.finding? findingKey = some (.flows flows) ∧ Ascends TaintFlow.le flows ∧
      (∀ f, f ∈ flows ↔ r.solver.facts.Reports p rules.sinks f) ∧
      ∀ f ∈ flows, (∃ rule ∈ rules.sources, r.solver.facts.Targets f.source rule.method) ∧
        ∃ sink ∈ rules.sinks, r.solver.facts.Targets f.sink sink.method := by
  have indexed := Program.indexed_of_build built
  have owned := Program.scoped_of_build built
  obtain ⟨runs, -, stored⟩ := Configuration.runs_of_finished Configuration.confines_all indexed owned
    ran finished
  have sourced := Configuration.sourced_of_finished indexed owned on ran finished
  have legible := runs.sound.legible
  obtain ⟨flows, hflows, finding⟩ := stored rules on
  have mem (f) : f ∈ flows ↔ r.solver.facts.Reports p rules.sinks f := by
    rw [← runs.program]
    exact mem_flows legible hflows
  have ascends : Ascends TaintFlow.le flows := by
    obtain ⟨lists, -, same⟩ := Option.bind_eq_some_iff.1 hflows
    cases same
    exact ascends_ascending TaintFlow.le_total TaintFlow.le_trans TaintFlow.le_antisymm _
  refine ⟨legible, fun o a q ha tainted => sourced.targets legible ⟨o, a, ha, tainted⟩, flows, finding,
    ascends, mem, fun f hf => ?_⟩
  obtain ⟨delivers, sink, hsink, -, calls⟩ := (mem f).1 hf
  rw [← runs.program] at delivers
  exact ⟨sourced.targets legible (tainted_of_delivers delivers), sink, hsink, calls⟩

open Taint.Examples in
/-- The text that is read is reported where the joined text is written, and this is all. -/
theorem flows_exact_joined : tracked.verdict = .finished ∧
    ∃ flows, tracked.solver.finding? findingKey = some (.flows flows) ∧
      Ascends TaintFlow.le flows ∧ flows = [⟨⟨1⟩, ⟨2⟩, 0⟩] ∧
      tracked.solver.facts.Reports (.ofDeclarations joined) reading.sinks ⟨⟨1⟩, ⟨2⟩, 0⟩ ∧
      ∃ rule ∈ reading.sources, tracked.solver.facts.Targets ⟨1⟩ rule.method := by
  obtain ⟨finished, found⟩ : tracked.verdict = .finished ∧
      tracked.solver.finding? findingKey = some (.flows [⟨⟨1⟩, ⟨2⟩, 0⟩]) := by decide +kernel
  obtain ⟨-, -, flows, finding, ascends, mem, calls⟩ := flows_exact built_joined rfl tracked_eq finished
  cases found.symm.trans finding
  have here : ⟨⟨1⟩, ⟨2⟩, 0⟩ ∈ [(⟨⟨1⟩, ⟨2⟩, 0⟩ : TaintFlow)] := List.mem_singleton_self _
  exact ⟨finished, _, found, ascends, rfl, (mem _).1 here, (calls _ here).1⟩

end Taint
end PointsTo
