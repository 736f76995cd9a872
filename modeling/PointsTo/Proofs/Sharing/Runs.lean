import PointsTo.Proofs.Runs
import PointsTo.Proofs.Sharing.Steps

/-!
A table of contexts that is left behind by earlier runs cannot be told from an empty one.
-/
namespace PointsTo

open Solver

variable {W : Bond} {σ τ α β : Type}

/-- States of reactions whose solvers are twins. -/
def Reaction.Twins (W : Bond) (st : σ × Solver) (st' : τ × Solver) : Prop := st.2.Twins W st'.2

theorem Reaction.lockstep_solve {f : Solve α} {g : Solve β} {A : Bond → α → β → Prop}
    (h : Lockstep Solver.Twins W f g A) :
    Lockstep Reaction.Twins W (solve f : Reaction σ α) (solve g : Reaction τ β) A :=
  fun st st' twins => h st.2 st'.2 twins

namespace Analysis

theorem lockstep_reject (receiver : Option ContextObjectId) (site : CallSiteId) :
    Lockstep Solver.Twins W (reject receiver site) (reject receiver site) Same := by
  cases receiver with
  | none =>
    apply (Solve.lockstep_callSite site).bindSame
    intro V _ decl
    apply (Solve.lockstep_siteText site).bindSame
    intro V _ text
    exact .throw
  | some o =>
    apply (Solve.lockstep_siteText site).bindSame
    intro V _ text
    apply (Solve.lockstep_objectAt o).bindSame
    intro V _ object
    apply Solve.lockstep_catalog.bindSame
    intro V _ catalog
    apply (Solve.lockstep_known_same (catalog.typeName? object.type)).bindSame
    intro V _ type
    apply Lockstep.modify
    rintro s t ⟨elements, awaited⟩
    exact .mk elements awaited

/-- Without plugins, calls without a target are rejected, and nothing else happens on events. -/
theorem lockstep_dispatch {x y : Event} (same : x.Twins W y) :
    Lockstep Reaction.Twins W (dispatch (.all []) x : Reaction σ Unit)
      (dispatch (.all []) y : Reaction τ Unit) Same := by
  cases same with
  | unresolved receiver same site =>
    exact Reaction.lockstep_solve (lockstep_reject receiver site)
  | method | contextMethod | call | objects => exact .pure rfl

theorem lockstep_nextEvent : Lockstep Solver.Twins W nextEvent nextEvent
    fun V => Option.Rel (Event.Twins V) := by
  apply Lockstep.get.bind
  rintro V - s _ ⟨elements, awaited⟩
  next others events =>
    dsimp only
    cases popped : s.events.pop? with
    | none =>
      rw [Queue.pop?_eq_none_iff.1 popped, List.forall₂_nil_left_iff] at awaited
      rw [Queue.pop?_eq_none_iff.2 awaited]
      exact .pure .none
    | some next =>
      obtain ⟨event, left⟩ := next
      rw [Queue.toList_of_pop? popped] at awaited
      cases popped' : events.pop? with
      | none =>
        rw [Queue.pop?_eq_none_iff.1 popped'] at awaited
        cases awaited
      | some next' =>
        obtain ⟨event', left'⟩ := next'
        rw [Queue.toList_of_pop? popped', List.forall₂_cons] at awaited
        apply (Lockstep.set (.mk elements awaited.2)).bindSame
        intro V' grown _
        exact .pure (.some (awaited.1.mono grown))

theorem lockstep_step : Lockstep Reaction.Twins W (step (.all []) : Reaction σ Bool)
    (step (.all []) : Reaction τ Bool) Same := by
  apply (Reaction.lockstep_solve lockstep_nextEvent).bind
  rintro V - next next' same
  cases same with
  | none => exact Reaction.lockstep_solve Solve.lockstep_step
  | some same =>
    apply (lockstep_dispatch same).bindSame
    intro V _ _
    exact .pure rfl

theorem lockstep_loop (fuel : Nat) : Lockstep Reaction.Twins W
    (loop (.all []) fuel : Reaction σ Bool) (loop (.all []) fuel : Reaction τ Bool) Same := by
  induction fuel generalizing W with
  | zero => exact .pure rfl
  | succ fuel ih =>
    apply lockstep_step.bindSame
    intro V _ more
    cases more with
    | true => exact ih
    | false => exact .pure rfl

theorem lockstep_runWithin (fuel : Nat) : Lockstep Reaction.Twins W
    (runWithin fuel (.all []) : Reaction σ Verdict) (runWithin fuel (.all []) : Reaction τ Verdict)
    Same := by
  apply Lockstep.bindSame (.pure rfl)
  intro V _ _
  apply (Reaction.lockstep_solve Solve.lockstep_reachEntries).bindSame
  intro V _ _
  apply (lockstep_loop fuel).bindSame
  intro V _ done
  cases done with
  | true => exact Lockstep.bindSame (.pure rfl) fun _ _ _ => .pure rfl
  | false => exact .pure rfl

/-- Runs from twins end the same way, in twins. -/
theorem twins_analyze {s t : Solver} (twins : s.Twins W t) (fuel : Nat) (own : σ) (own' : τ) :
    (analyze fuel (.all []) own s).verdict = (analyze fuel (.all []) own' t).verdict ∧
      ∃ V, (analyze fuel (.all []) own s).solver.Twins V (analyze fuel (.all []) own' t).solver := by
  obtain ⟨V, -, twins', same⟩ := lockstep_runWithin fuel (own, s) (own', t) twins
  unfold analyze
  generalize runWithin fuel (.all []) (own, s) = r at twins' same ⊢
  generalize runWithin fuel (.all []) (own', t) = r' at twins' same ⊢
  obtain ⟨verdict, st⟩ := r
  obtain ⟨verdict', st'⟩ := r'
  cases same with
  | ok same => exact ⟨same, V, twins'⟩
  | error fault => exact ⟨rfl, V, twins'⟩

end Analysis

namespace Solver

/-- Two states in which nothing is known but contexts, whichever these are. -/
theorem twins_initial (p : Program) (sel : Selector) (contexts contexts' : ContextTable) :
    ∃ W, (initial p sel contexts).Twins W (initial p sel contexts') := by
  let W : Bond := fun c c' => ∃ l, contexts.get? c = some l ∧ contexts'.get? c' = some l
  refine ⟨W, .mk ?_ .nil⟩
  exact {
    contexts := fun _ _ => id
    empty := ⟨[], ContextTable.get?_emptyId, ContextTable.get?_emptyId⟩
    heap := rfl
    vars := .nil
    objects := .nil
    methods := .nil
    sites := .nil }

/-- What a state tells, with meanings in place of ids: the objects, the reached methods, and the calls,
each in the order in which they were found, the objects of every pointer, and the messages. Where a run
has finished, each id has a meaning (`Sound.legible`). -/
structure View where
  objects : List AbstractObject
  reached : List (Option (Situation × MethodId))
  calls : List (Option Via × Option (Situation × CallSiteId) × Option (Situation × MethodId))
  points : List (Option Place × List (Option Value))
  log : Array Message

def view (s : Solver) : View where
  objects := s.elements.heap.toList
  reached := s.calls.reached.toList.map (s.elements.copy? s.elements.methods)
  calls := s.calls.edges.map fun edge => (s.elements.via? edge.kind,
    s.elements.copy? s.elements.sites edge.site, s.elements.copy? s.elements.methods edge.callee)
  points := s.flows.nodes.toList.map fun p =>
    (s.elements.place? p, (s.pointsTo p).toList.map s.elements.value?)
  log := s.log

theorem Twins.view_eq {s t : Solver} (h : s.Twins W t) : s.view = t.view := by
  cases h with
  | mk same awaited =>
    simp only [view, same.via?_eq, same.copy?_eq same.sites, same.copy?_eq same.methods,
      same.place?_eq, same.value?_eq, same.heap]
    rfl

end Solver

/-- Contexts that are left behind by earlier runs make no difference. Whatever contexts a run without
plugins starts with, it ends the same way, and tells the same, meanings standing in place of ids. -/
theorem contexts_invisible (p : Program) (sel : Selector) (contexts contexts' : ContextTable)
    (fuel : Nat) (own : σ) :
    let r := analyze fuel (.all []) own (.initial p sel contexts)
    let r' := analyze fuel (.all []) own (.initial p sel contexts')
    r.verdict = r'.verdict ∧ r.solver.view = r'.solver.view := by
  obtain ⟨W, twins⟩ := twins_initial p sel contexts contexts'
  obtain ⟨same, V, twins'⟩ := Analysis.twins_analyze twins fuel own own
  exact ⟨same, twins'.view_eq⟩

end PointsTo
