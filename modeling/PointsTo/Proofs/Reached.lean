import PointsTo.Proofs.Propagation

/-!
The methods reached in any context are the methods of those reached in a context.
-/
namespace PointsTo

open Solver

/-- The reached methods are those that are reached in some context. -/
structure Solver.Tallied (s : Solver) : Prop where
  sound : ∀ m, m ∈ s.reachedMethods → ∃ cm pair, s.calls.Reaches cm ∧
    s.elements.methods.get? cm = some pair ∧ pair.entity = m
  complete : ∀ cm, s.calls.Reaches cm → ∃ pair, s.elements.methods.get? cm = some pair ∧
    pair.entity ∈ s.reachedMethods

namespace Solver.Tallied

variable {s t : Solver}

theorem initial {p : Program} {sel : Selector} {contexts : ContextTable} :
    (initial p sel contexts).Tallied where
  sound _ hm := absurd hm Std.TreeSet.not_mem_emptyc
  complete cm hcm := by
    obtain ⟨i, hi⟩ := hcm
    cases hi

theorem contributes (h : s.Tallied) (st : s.Contributes t) : t.Tallied where
  sound m hm := by
    rw [st.reachedMethods] at hm
    obtain ⟨cm, pair, reached, hpair, same⟩ := h.sound m hm
    exact ⟨cm, pair, st.reaches reached, st.elements.methods cm pair hpair, same⟩
  complete cm hcm := by
    rw [st.sameCalls] at hcm
    obtain ⟨pair, hpair, mem⟩ := h.complete cm hcm
    refine ⟨pair, st.elements.methods cm pair hpair, ?_⟩
    rw [st.reachedMethods]
    exact mem

theorem entered (h : s.Tallied) {calls : CallGraph} {cm : ContextMethodId}
    (reaches : ∀ x, calls.Reaches x ↔ s.calls.Reaches x ∨ x = cm)
    (st : Extends { s with calls } t) {pair : InContext .method}
    (hpair : s.elements.methods.get? cm = some pair)
    (entered : ∀ m, m ∈ t.reachedMethods ↔ m ∈ s.reachedMethods ∨ m = pair.entity) :
    t.Tallied where
  sound m hm := by
    obtain old | rfl := (entered m).1 hm
    · obtain ⟨x, pair, reached, hpair, same⟩ := h.sound m old
      exact ⟨x, pair, st.reaches ((reaches x).2 (.inl reached)), st.elements.methods x pair hpair,
        same⟩
    · exact ⟨cm, pair, st.reaches ((reaches cm).2 (.inr rfl)), st.elements.methods cm pair hpair,
        rfl⟩
  complete x hx := by
    rw [st.sameCalls] at hx
    obtain old | rfl := (reaches x).1 hx
    · obtain ⟨pair, hpair, mem⟩ := h.complete x old
      exact ⟨pair, st.elements.methods x pair hpair, (entered _).2 (.inl mem)⟩
    · exact ⟨pair, st.elements.methods x pair hpair, (entered _).2 (.inr rfl)⟩

/-- A method that is reached for the first time in its context is entered. -/
theorem enter (h : s.Tallied) {calls : CallGraph} {cm : ContextMethodId}
    (reaches : ∀ x, calls.Reaches x ↔ s.calls.Reaches x ∨ x = cm)
    (st : Extends { s with calls } t)
    (entered : s.calls.Reaches cm ∧ t.reachedMethods = s.reachedMethods ∧
        t.entrances = s.entrances ∨
      ∃ pair, s.elements.methods.get? cm = some pair ∧ Enters cm pair.entity s t) : t.Tallied := by
  obtain ⟨pair, hpair, entered⟩ : ∃ pair, s.elements.methods.get? cm = some pair ∧
      ∀ m, m ∈ t.reachedMethods ↔ m ∈ s.reachedMethods ∨ m = pair.entity := by
    obtain ⟨known, same, -⟩ | ⟨pair, hpair, entered⟩ := entered
    · obtain ⟨pair, hpair, mem⟩ := h.complete cm known
      refine ⟨pair, hpair, fun m => ?_⟩
      rw [same]
      exact ⟨.inl, fun h => h.elim id (· ▸ mem)⟩
    · exact ⟨pair, hpair, entered.reachedMethods⟩
  exact h.entered reaches st hpair entered

end Solver.Tallied

namespace Solve

abbrev Tallies (s t : Solver) : Prop := s.Tallied → t.Tallied

instance : IsPreorder Solver Tallies where
  refl _ := id
  trans _ _ _ st tu h := tu (st h)

theorem tallies_reachEntries : Relates Tallies reachEntries :=
  relates_reachEntries (fun _ _ st h => h.contributes st.contributes) fun _ _ _ admitted h => by
    cases admitted with
    | again => exact h
    | first _ rest place enrols =>
      exact h.enter (fun _ => CallGraph.reaches_reach) rest (.inr ⟨_, place, enrols.enters⟩)

theorem tallies_step : Relates Tallies step := by
  refine relates_step (fun _ _ st h => h.contributes st.contributes)
    (fun _ _ _ h => ⟨h.sound, h.complete⟩) (fun _ _ s _ reached added h => ?_)
    fun n s _ handed h => ?_
  · cases added.recorded with
    | again => exact h
    | first fresh rest entered => exact h.enter (CallGraph.reaches_add fresh reached) rest entered
  · have flushed : Tallied { s with points := (s.points.flush n).2 } := ⟨h.sound, h.complete⟩
    exact flushed.contributes handed.contributes.1

end Solve

theorem Analysis.maintained_tallied : Maintained Solver.Tallied where
  contributes _ _ st h := h.contributes st
  events _ _ h := ⟨h.sound, h.complete⟩
  entries := Solve.tallies_reachEntries
  work := Solve.tallies_step

end PointsTo
