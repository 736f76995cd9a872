import PointsTo.Proofs.Limits.Plugins
import PointsTo.Proofs.Safety.Safe

/-!
Contexts are no longer than the selector allows throughout a run, whether it finishes, is stopped, or
breaks off with a fault, and whatever contexts were known before.
-/
namespace PointsTo

open Reaction Solve

variable {σ : Type} {sel : Selector} {E : Fault → Prop} {J : σ → Elements → Prop}
  {st : σ × Solver} {plugin : Plugin σ}

namespace Analysis

variable (tolerates : sel.Tolerates E)
include tolerates

theorem confines_reject {s : Solver} (receiver : Option ContextObjectId) (site : CallSiteId) :
    Confines sel E (reject receiver site) s fun _ _ => True := by
  cases receiver with
  | none =>
    refine .after looks_callSite tolerates.refused fun decl _ => ?_
    refine .after looks_siteText tolerates.refused fun text _ => ?_
    exact .throw fun hs => ⟨tolerates.unsupported _ _, hs⟩
  | some o =>
    refine .after looks_siteText tolerates.refused fun text _ => ?_
    refine .after looks_objectAt tolerates.refused fun a _ => ?_
    refine .after looks_catalog tolerates.refused fun _ _ => ?_
    exact .after looks_known tolerates.refused fun _ _ => confines_warn _

omit tolerates in
/-- The contexts that plugins are asked about are no longer than the selector allows. -/
theorem confines_nextEvent {s : Solver} :
    Confines sel E nextEvent s fun event t => ∀ receiver c site,
      event = some (.unresolved receiver c site) → t.elements.Allows sel.limit c := by
  refine .afterGet fun hs => ?_
  split
  next e rest hpop =>
    have list := Queue.toList_of_pop? hpop
    have fewer : Solver.Bounded sel { s with events := rest } := by
      refine hs.of_same rfl rfl (fun e' he' => ?_) .inl
      rw [list]
      exact List.mem_cons_of_mem e he'
    refine ⟨fewer, .refl s.elements, ?_⟩
    rintro receiver c site ⟨⟩
    exact hs.asked receiver c site (by rw [list]; exact List.mem_cons_self)
  next => exact ⟨hs, .refl s.elements, nofun⟩

variable (confined : plugin.Confined sel E J) (lasts : Lasts J)
include confined lasts

theorem restrains_dispatch {e : Event} (allowed : ∀ receiver c site,
    e = .unresolved receiver c site → st.2.elements.Allows sel.limit c) :
    Restrains sel E J (dispatch plugin e) st fun _ _ => True := by
  cases e with
  | method m => exact confined.onMethod st m
  | contextMethod cm => exact confined.onContextMethod st cm
  | call edge => exact confined.onCall st edge
  | objects x delta => exact confined.onObjects st x delta
  | unresolved receiver c site =>
    refine .bind (confined.onUnresolved st receiver c site (allowed receiver c site rfl))
      fun claimed u _ _ => ?_
    split
    · exact restrains_solve lasts (confines_reject tolerates receiver site)
    · exact .pure trivial

theorem restrains_step : Restrains sel E J (step plugin) st fun _ _ => True := by
  refine .bind (restrains_solve lasts confines_nextEvent) fun event u _ allowed => ?_
  cases event with
  | some e =>
    refine .bind (restrains_dispatch tolerates confined lasts ?_) fun _ _ _ _ => .pure trivial
    rintro receiver c site rfl
    exact allowed receiver c site rfl
  | none => exact restrains_solve lasts (confines_step tolerates.toEndures)

/-- However a run ends, its contexts are no longer than the selector allows, and its fault is among
those that are tolerated. -/
theorem bounded_analyze {fuel : Nat} {own : σ} {s : Solver} (hJ : J own s.elements)
    (hs : s.Bounded sel) : (analyze fuel plugin own s).solver.Bounded sel ∧
      ∀ fault, (analyze fuel plugin own s).verdict = .failed fault → E fault := by
  let I (st : σ × Solver) := J st.1 st.2.elements ∧ st.2.Bounded sel
  let F (fault : Fault) (st : σ × Solver) := E fault ∧ st.2.Bounded sel
  have start : Ends plugin.onStart (own, s) (fun _ st =>
      Ends (Reaction.solve reachEntries) st (fun _ => I) F) F :=
    (confined.onStart (own, s) ⟨hJ, hs⟩).mono (fun _ _ ⟨h, _⟩ =>
      (restrains_solve lasts (confines_reachEntries tolerates.toEndures) h).mono
        (fun _ _ => And.left) fun _ _ => id) fun _ _ => id
  have work (st : σ × Solver) (h : I st) :
      Ends (step plugin) st (fun more st' => if more then I st' else I st') F :=
    (restrains_step tolerates confined lasts h).mono (fun more _ ⟨h, _⟩ => by rwa [ite_self])
      fun _ _ => id
  have finish (st : σ × Solver) (h : I st) : Ends plugin.onFinish st (fun _ => I) F :=
    (confined.onFinish st h).mono (fun _ _ => And.left) fun _ _ => id
  generalize ran : analyze fuel plugin own s = r
  have ends := ends_analyze work start finish ran
  rcases r with ⟨_ | fault | _, own', t⟩
  · exact ⟨ends.2, nofun⟩
  · refine ⟨ends.2, ?_⟩
    rintro _ ⟨⟩
    exact ends.1
  · exact ⟨ends.2, nofun⟩

end Analysis

/-- What plugins know in contexts that the limit `k` allows. -/
def Extensions.Fits (k : Nat) (own : Extensions) (e : Elements) : Prop := own.lambda.Fits k e

theorem Extensions.lasts_fits {k : Nat} : Lasts (Extensions.Fits k) := fun own =>
  Lambda.State.Fits.lasts own.lambda

theorem Extensions.fits_empty {k : Nat} {e : Elements} : Extensions.Fits k {} e :=
  Lambda.State.Fits.empty

/-- Whichever plugins are on, they put entities only in contexts that the selector allows. -/
theorem Configuration.confined_plugins (c : Configuration) (tolerates : sel.Tolerates E) :
    (Plugin.all c.plugins).Confined sel E (Extensions.Fits sel.limit) := by
  refine .all fun q hq => ?_
  obtain hq | hq := List.mem_append.1 hq
  · split at hq
    · cases List.mem_singleton.1 hq
      exact (Lambda.confined_plugin tolerates).focus (fun _ _ => id) fun _ _ _ _ _ _ => id
    · cases hq
  · obtain ⟨rules, -, rfl⟩ := Option.map_eq_some_iff.1 (Option.mem_toList.1 hq)
    exact (Taint.confined_plugin tolerates rules).focus (fun _ _ _ => trivial)
      fun own _ _ _ within fits _ => Extensions.lasts_fits own _ _ fits within

/-- The entities of a run, whichever plugins are on, are in contexts of the table that are no longer than
the selector allows, and allocated objects in such as are shorter by one, or empty. A run that is
stopped after any number of transitions is covered as well as one that has come to its end or to a
fault. The table may have held other contexts from the start, of any length. -/
theorem contexts_limited (p : Program) (c : Configuration) (contexts : ContextTable) (fuel : Nat) :
    (analyze fuel (.all c.plugins) {} (.initial p c.selector contexts)).solver.elements.Limited
      c.selector.limit :=
  have tolerates : c.selector.Tolerates fun _ => True :=
    ⟨⟨trivial, fun _ => trivial, fun _ => trivial⟩, fun _ _ => trivial⟩
  (Analysis.bounded_analyze tolerates (c.confined_plugins tolerates) Extensions.lasts_fits
    Extensions.fits_empty Solver.bounded_initial).1.elements

end PointsTo
