import PointsTo.Proofs.Calls.Roots
import PointsTo.Proofs.Limits.Runs
import PointsTo.Proofs.Termination.Runs

/-!
Under a selector of call sites, the context of a method is the end of every way along the calls from an
entry: the call sites that were passed last.
-/
namespace PointsTo

theorem Context.pushWithin_take {k : Nat} {element : ContextElement} {c : Context} :
    pushWithin k element (c.take k) = pushWithin k element c := by
  cases k with
  | zero => rfl
  | succ k => simp [pushWithin, List.take_take]

namespace Solver

variable {s : Solver} {k : Nat} {start cm : ContextMethodId} {path : List CallEdge}

/-- A method is in the context of the call sites in front of it, the most recent ones first. -/
def Recalls (s : Solver) (k : Nat) (path : List CallEdge) (cm : ContextMethodId) : Prop :=
  ∃ sites pair, path.mapM (fun e => s.siteOf? e.site) = some sites ∧
    s.elements.methods.get? cm = some pair ∧
    s.elements.contexts.get? pair.context = some ((sites.reverse.take k).map .callSite)

theorem recalls_root (root : s.IsRoot cm) : s.Recalls k [] cm := by
  obtain ⟨m, -, pair⟩ := root
  refine ⟨[], _, rfl, pair, ?_⟩
  rw [List.reverse_nil, List.take_nil]
  exact ContextTable.get?_emptyId

/-- A call adds its site to what its caller recalls. -/
theorem Recalls.call {caller : ContextMethodId} {edge : CallEdge} (h : s.Recalls k path caller)
    (encloses : s.Encloses caller edge.site)
    (follows : s.elements.Follows (.callSite k) edge.site edge.callee) :
    s.Recalls k (path ++ [edge]) edge.callee := by
  obtain ⟨sites, pair, hsites, hpair, hl⟩ := h
  obtain ⟨site, decl, hsite, -, hcaller⟩ := encloses
  cases hpair.symm.trans hcaller
  obtain ⟨callee, hcallee, continues⟩ := follows
  obtain ⟨site', l, hsite', hl', hc⟩ := continues k rfl
  cases hsite.symm.trans hsite'
  cases hl.symm.trans hl'
  refine ⟨sites ++ [site.entity], callee, ?_, hcallee, ?_⟩
  · have last : s.siteOf? edge.site = some site.entity := by rw [siteOf?, hsite]; rfl
    rw [List.mapM_append, hsites]
    simp [last]
  · rw [hc, List.map_take, Context.pushWithin_take]
    simp [Context.pushWithin]

theorem Leads.eq_of_nil (way : s.Leads start [] cm) : start = cm := by
  generalize nothing : [] = path at way
  cases way with
  | stay => rfl
  | call => simp at nothing

theorem Leads.recalls (bounded : s.Bounded (.callSite k)) (root : s.IsRoot start)
    (way : s.Leads start path cm) : s.Recalls k path cm := by
  induction way with
  | stay => exact recalls_root root
  | call _ found leaves ih =>
    obtain ⟨call, recorded, rfl⟩ := CallGraph.mem_edges.1 found
    exact ih.call leaves (bounded.called _ _ (.inr ⟨call, recorded, rfl⟩))

end Solver

/-- Contexts of call sites are call strings. Take any program and any selector of call sites, whichever
plugins are on, and a run that finishes. Along any calls that start at an entry in the empty context,
each in the method and the context that the one before has led to, the last callee is in the context of
the `k` most recent call sites, or of all of them when there are fewer. And some such calls lead to every
reached method that is not itself an entry in the empty context. -/
theorem contexts_recall {c : Configuration} {k : Nat} (sites : c.selector = .callSite k) (p : Program)
    (contexts : ContextTable) {fuel : Nat} {r : Run Extensions}
    (ran : analyze fuel (.all c.plugins) {} (.initial p c.selector contexts) = r)
    (finished : r.verdict = .finished) :
    r.solver.program = p ∧
    (∀ root path cm, r.solver.IsRoot root → r.solver.Leads root path cm → r.solver.Recalls k path cm) ∧
    ∀ cm, r.solver.calls.isReached cm = true → ¬ r.solver.IsRoot cm →
      ∃ root path, path ≠ [] ∧ r.solver.IsRoot root ∧ r.solver.Leads root path cm := by
  subst ran
  have tolerates : c.selector.Tolerates fun _ => True :=
    ⟨⟨trivial, fun _ => trivial, fun _ => trivial⟩, fun _ _ => trivial⟩
  have bounded : (analyze fuel (.all c.plugins) {} (.initial p c.selector contexts)).solver.Bounded
      c.selector :=
    (Analysis.bounded_analyze tolerates (c.confined_plugins tolerates) Extensions.lasts_fits
      Extensions.fits_empty Solver.bounded_initial).1
  obtain ⟨program, rooted⟩ := (Analysis.maintained_rooted p).finished (.all c.public_plugins)
    ⟨rfl, Solver.rooted_initial⟩ finished
  refine ⟨program, fun root path cm isRoot way => ?_, fun cm reached other => ?_⟩
  · rw [sites] at bounded
    exact way.recalls (sites ▸ bounded) isRoot
  · obtain ⟨root, path, isRoot, way⟩ := rooted.exists_leads (CallGraph.isReached_iff.1 reached)
    refine ⟨root, path, ?_, isRoot, way⟩
    rintro rfl
    exact other (way.eq_of_nil ▸ isRoot)

namespace Examples

/-- The calls of the example in the order in which they were found; the last one leads to its own
caller. -/
def cycledPath : List CallEdge :=
  [⟨⟨0⟩, ⟨1⟩, .static⟩, ⟨⟨1⟩, ⟨2⟩, .static⟩, ⟨⟨2⟩, ⟨3⟩, .static⟩, ⟨⟨3⟩, ⟨3⟩, .static⟩]

end Examples

open Examples in
/-- A method that calls itself in its own context recalls the last two of four calls. -/
theorem contexts_recall_cycled : (cycledRun 60).verdict = .finished ∧
    (cycledRun 60).solver.Leads ⟨0⟩ cycledPath ⟨3⟩ ∧
    (cycledRun 60).solver.Recalls 2 cycledPath ⟨3⟩ ∧
    (cycledRun 60).solver.elements.context ⟨4⟩ = [.callSite ⟨0⟩, .callSite ⟨0⟩] := by
  obtain ⟨finished, edges, leaves, entry, root, context⟩ : (cycledRun 60).verdict = .finished ∧
      cycledPath = (cycledRun 60).solver.calls.edges ∧
      (∀ i ∈ [0, 1, 2, 3], (cycledRun 60).solver.Encloses ⟨i⟩ ⟨i⟩) ∧
      ⟨1⟩ ∈ (cycledRun 60).solver.program.entries ∧
      (cycledRun 60).solver.elements.methods.get? ⟨0⟩ = some ⟨ContextTable.emptyId, ⟨1⟩⟩ ∧
      (cycledRun 60).solver.elements.context ⟨4⟩ = [.callSite ⟨0⟩, .callSite ⟨0⟩] := by
    decide +kernel
  have found {edge : CallEdge} (mem : edge ∈ cycledPath) :
      edge ∈ (cycledRun 60).solver.calls.edges := edges ▸ mem
  have first : (cycledRun 60).solver.Leads ⟨0⟩ [⟨⟨0⟩, ⟨1⟩, .static⟩] ⟨1⟩ :=
    .call .stay (found (by decide)) (leaves 0 (by decide))
  have second : (cycledRun 60).solver.Leads ⟨0⟩ _ ⟨2⟩ :=
    first.call (found (List.mem_of_getElem? (i := 1) rfl)) (leaves 1 (by decide))
  have third : (cycledRun 60).solver.Leads ⟨0⟩ _ ⟨3⟩ :=
    second.call (found (List.mem_of_getElem? (i := 2) rfl)) (leaves 2 (by decide))
  have way : (cycledRun 60).solver.Leads ⟨0⟩ cycledPath ⟨3⟩ :=
    third.call (found (List.mem_of_getElem? (i := 3) rfl)) (leaves 3 (by decide))
  obtain ⟨-, recalls, -⟩ := contexts_recall (c := cycled) rfl cycleProgram leftBehind rfl finished
  exact ⟨finished, way, recalls _ _ _ ⟨⟨1⟩, entry, root⟩ way, context⟩

end PointsTo
