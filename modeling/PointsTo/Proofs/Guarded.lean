import PointsTo.Proofs.Visits

/-!
Runs with plugins that use entry points only: what the solver maintains by itself, such plugins do
not break.
-/
namespace PointsTo.Analysis

open Solver

variable {σ : Type} {plugin : Plugin σ}

theorem entered_reject {M : AbstractObject → Prop} (receiver : Option ContextObjectId)
    (site : CallSiteId) : Relates (EnteredBy M) (reject receiver site) := by
  cases receiver with
  | none => exact .bind Solve.relates_callSite fun _ => .bind Solve.relates_siteText fun _ => .throw
  | some o =>
    exact .bind Solve.relates_siteText fun _ => .bind Solve.relates_objectAt fun _ =>
      .bind Solve.relates_catalog fun _ => .bind Solve.relates_known fun _ =>
        Solve.entered_warn _

/-- Events are answered by entry points only. -/
theorem entered_dispatch (guarded : plugin.Public) (event : Event) :
    Relates (Alike Entered) (dispatch plugin event) := by
  cases event with
  | method m => exact guarded.onMethod m
  | contextMethod m => exact guarded.onContextMethod m
  | call edge => exact guarded.onCall edge
  | objects x delta => exact guarded.onObjects x delta
  | unresolved receiver c site =>
    refine .bind (guarded.onUnresolved receiver c site) fun claimed => ?_
    split
    · exact Reaction.relates_solve
        (Solve.entered_of_enteredBy (M := fun _ => True) (entered_reject receiver site))
    · exact .pure

/-- A property of states that the solver maintains, whether or not events have been handed out. -/
structure Maintained (I : Solver → Prop) : Prop where
  contributes : ∀ s t, s.Contributes t → I s → I t
  events : ∀ (s : Solver) (rest : Queue Event), I s → I { s with events := rest }
  entries : Relates (fun s t => I s → I t) Solve.reachEntries
  work : Relates (fun s t => I s → I t) Solve.step

namespace Maintained

variable {I : Solver → Prop} (h : Maintained I) (guarded : plugin.Public)
include h guarded

theorem event {own : σ} {s : Solver} {e : Event} {rest : Queue Event} (hs : I s) :
    Ensures (dispatch plugin e) (own, { s with events := rest }) fun _ st => I st.2 :=
  (entered_dispatch guarded e _).mono fun _ _ entered =>
    h.contributes _ _ entered.contributes (h.events s rest hs)

theorem start {st : σ × Solver} (hs : I st.2) :
    Ensures plugin.onStart st fun _ st =>
      Ensures (Reaction.solve Solve.reachEntries) st fun _ st' => I st'.2 :=
  (guarded.onStart st).mono fun _ st entered =>
    (Reaction.relates_solve h.entries st).mono fun _ _ keeps =>
      keeps (h.contributes _ _ entered.contributes hs)

theorem step (st : σ × Solver) (hs : I st.2) :
    Ensures (step plugin) st fun more st' => I st'.2 ∧ (more = false → st'.2.Quiet) := by
  refine ensures_step (I := fun _ s => I s) (fun _ _ _ _ hs _ => h.event guarded hs) ?_ hs
  intro own s hs _
  exact ((h.work s).and Solve.ensures_idle_step).mono fun _ _ ⟨keeps, last⟩ => ⟨keeps hs, last⟩

/-- It holds in every state that a run comes through. -/
theorem visits {start st : σ × Solver} (hs : I start.2) (visited : Visits plugin start st) :
    I st.2 :=
  visited.invariant (I := fun st => I st.2) (h.start guarded hs) fun st hs =>
    (h.step guarded st hs).mono fun _ _ kept _ => kept.1

/-- It holds at the end of a run that finishes. -/
theorem finished {fuel : Nat} {own : σ} {s : Solver} (hs : I s)
    (finished : (analyze fuel plugin own s).verdict = .finished) :
    I (analyze fuel plugin own s).solver := by
  obtain ⟨last, st, visited, ended, said⟩ := exists_last_of_finished finished
  have kept := (h.step guarded last (h.visits guarded hs visited) _ _ ended).1
  have entered := guarded.onFinish st _ _ said
  exact h.contributes _ _ entered.contributes kept

end Maintained

end PointsTo.Analysis
