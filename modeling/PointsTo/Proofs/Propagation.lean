import PointsTo.Proofs.Guarded

/-!
Differential propagation loses nothing, whatever plugins do through the entry points: in every state
that a run comes through, each object of a node is either on the way or has arrived at the end of
every edge that it passes.
-/
namespace PointsTo

open Facts

namespace Solve

open Solver

/-! ### Pieces of work -/

/-- A computation that loses no object. -/
abbrev Keeps (s t : Solver) : Prop := s.Conserves → t.Conserves

instance : IsPreorder Solver Keeps where
  refl _ := id
  trans _ _ _ st tu h := tu (st h)

theorem keeps_reachEntries : Relates Keeps reachEntries :=
  relates_reachEntries (fun _ _ st => st.conserves) fun _ s _ admitted h => by
    cases admitted with
    | again => exact h
    | first _ rest => exact rest.conserves (h.withCalls _ s.callQueue)

theorem keeps_processCallEdge (edge : CallEdge) : Relates Keeps (processCallEdge edge) := by
  intro s
  refine (ensures_recorded edge).mono ?_
  rintro _ t ⟨site, decl, -, -, -, recorded⟩ h
  have interned := (Entry.method s site.context decl.container).extends.conserves h
  cases recorded with
  | again => exact interned
  | first _ rest => exact rest.conserves (interned.withCalls _ _)

/-- A node that leaves the work list passes on all its new objects. -/
theorem ensures_conserves_processNode {s : Solver} (h : s.Conserves) {n : NodeId}
    {rest : Queue NodeId} (next : s.worklist.toList = n :: rest.toList) :
    Ensures (processNode n) { s with worklist := rest } fun _ t => t.Conserves := by
  refine .bind ensures_change ?_
  rintro delta u ⟨hdelta, hu⟩
  change delta = (s.points.flush n).1 at hdelta
  change u = { s with worklist := rest, points := (s.points.flush n).2 } at hu
  have sameFlows : u.flows = s.flows := by rw [hu]
  cases delta with
  | none =>
    have none := fun o => PendingStore.pendingOf_of_flush (a := o) hdelta.symm
    exact .pure (h.flush next (hu ▸ .refl u) fun _ _ _ o ho => absurd ho (none o))
  | some delta =>
    refine .bind ensures_get ?_
    rintro _ _ ⟨rfl, rfl⟩
    -- the edges are taken as they are now: those that come later find the objects passed on
    refine .bind (.forM (R := Extends)
      (D := fun (e : NodeId × FlowKind) t => ∀ o ∈ delta, t.Carried e.2 e.1 o)
      (fun _ t _ => .refl t) (fun _ _ _ => .trans)
      (fun _ _ _ st carried o ho => st.carried (carried o ho)) (.refl u)
      fun e _ t _ => extends_propagate.mono fun _ _ => And.right) ?_
    rintro _ t ⟨ut, carried⟩
    have kept {v : Solver} (tv : t.Extends v) : v.Conserves := by
      refine h.flush next (hu ▸ ut.trans tv) fun m k hf o ho => tv.carried ?_
      refine carried (m, k) ?_ o ((PendingStore.mem_of_flush hdelta.symm).2 ho)
      rw [sameFlows]
      exact (h.filed n m k).2 hf
    refine .bind ensures_get ?_
    rintro _ _ ⟨rfl, rfl⟩
    refine .bind ensures_known ?_
    rintro p _ ⟨rfl, -⟩
    split
    · exact (contributes_processVar _ _ t).mono fun _ _ tv => kept tv.toExtends
    · exact .pure (kept (.refl t))

theorem keeps_step : Relates Keeps step := fun _ =>
  ensures_step_cases
    (fun edge _ _ => (keeps_processCallEdge edge _).mono fun _ _ keeps h => keeps (h.withCalls _ _))
    (fun _ _ _ next a t run h => ensures_conserves_processNode h next a t run) fun _ => id

end Solve

theorem Analysis.maintained_conserves : Maintained Solver.Conserves where
  contributes _ _ st h := st.toExtends.conserves h
  events _ rest h := h.withEvents rest
  entries := Solve.keeps_reachEntries
  work := Solve.keeps_step

open Analysis in
/-- Differential propagation loses nothing. Take any program, any selector and any plugins that use
entry points only, and any state at the head of the loop. What a node still has to pass on it has
not passed on, and it is on the work list; what it has passed on has arrived at the end of every
edge that the object passes. When the loop ends, everything has been passed on, and the objects are
closed under the edges. -/
theorem propagation_lossless {σ : Type} {plugins : List (Plugin σ)}
    (guarded : ∀ plugin ∈ plugins, plugin.Public) {p : Program} {sel : Selector}
    {contexts : ContextTable} {own : σ} {st : σ × Solver}
    (visited : Visits (.all plugins) (own, .initial p sel contexts) st) :
    (∀ n o, o ∈ st.2.points.pendingOf n → o ∉ st.2.points.propagatedOf n) ∧
    (∀ n o, o ∈ st.2.points.pendingOf n → n ∈ st.2.worklist.toList) ∧
    (∀ f, st.2.flows.Has f → ∀ o ∈ st.2.points.propagatedOf f.source,
      st.2.passes f.kind o = true → o ∈ st.2.points.all f.target) ∧
    ∀ last, step (.all plugins) st = (.ok false, last) →
      (∀ n o, o ∉ last.2.points.pendingOf n) ∧
      ∀ f, last.2.flows.Has f → ∀ o ∈ last.2.points.all f.source,
        last.2.passes f.kind o = true → o ∈ last.2.points.all f.target := by
  have start : (Solver.initial p sel contexts).Conserves :=
    (invariant_initial (F := .core)).conserves
  have conserves := maintained_conserves.visits (.all guarded) start visited
  refine ⟨conserves.apart, conserves.waiting, fun f hf o ho => (conserves.arrived f hf o ho).2,
    fun last ended => ?_⟩
  obtain ⟨conserves, quiet⟩ := maintained_conserves.step (.all guarded) st conserves _ _ ended
  have idle := (quiet rfl).2.2
  exact ⟨conserves.settled idle, conserves.closed idle⟩

namespace Examples

/-- Function values are linked, and the method that returns its argument is a source of taint. -/
def extended : Configuration := ⟨.object 2, true, some { sources := [⟨⟨1⟩, ⟨1⟩⟩] }⟩

end Examples

open Analysis Examples in
/-- With function values and taint tracking, the run on the example ends with all objects where they
belong. -/
theorem propagation_lossless_echo : ∃ st last : Extensions × Solver,
    Visits (.all extended.plugins) ({}, .initial (.ofDeclarations echo) (.object 2) default) st ∧
    step (.all extended.plugins) st = (.ok false, last) ∧
    (∀ n o, o ∉ last.2.points.pendingOf n) ∧
    ∀ f, last.2.flows.Has f → ∀ o ∈ last.2.points.all f.source,
      last.2.passes f.kind o = true → o ∈ last.2.points.all f.target := by
  have finished : (analyze 100 (.all extended.plugins) {}
      (.initial (.ofDeclarations echo) (.object 2) default)).verdict = .finished := by
    decide +kernel
  obtain ⟨st, last, visited, ended, -⟩ := exists_last_of_finished finished
  have lossless := propagation_lossless extended.public_plugins visited
  exact ⟨st, last, visited, ended, lossless.2.2.2 last ended⟩

end PointsTo
