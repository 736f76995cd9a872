import PointsTo.Proofs.Reached

/-!
The calls that plugins are to be asked about because they are linked at run time. Until one of them is
handed out, they are those in the methods that have been reached.
-/
namespace PointsTo

open Solver

/-- Plugins are still to be asked about the calls of reached methods that they have to take care of,
and about all of them. -/
structure Solver.Petitioned (s : Solver) : Prop where
  sound : ∀ e ∈ s.petitions, ∃ cm pair, s.calls.Reaches cm ∧
    s.elements.methods.get? cm = some pair ∧ e ∈ s.program.petitions pair
  complete : ∀ cm, s.calls.Reaches cm → ∃ pair, s.elements.methods.get? cm = some pair ∧
    s.program.petitions pair ⊆ s.petitions

namespace Solver.Petitioned

variable {s t : Solver}

theorem initial {p : Program} {sel : Selector} {contexts : ContextTable} :
    (initial p sel contexts).Petitioned where
  sound e he := by cases he
  complete cm hcm := by
    obtain ⟨i, hi⟩ := hcm
    cases hi

/-- Nothing is asked, and no method is reached. -/
theorem grow (h : s.Petitioned) (program : t.program = s.program)
    (elements : s.elements.Within t.elements) (reached : t.calls.reached = s.calls.reached)
    (petitions : t.petitions = s.petitions) : t.Petitioned where
  sound e he := by
    rw [petitions] at he
    obtain ⟨cm, pair, hcm, hpair, asked⟩ := h.sound e he
    exact ⟨cm, pair, by rwa [CallGraph.Reaches, reached], elements.methods cm pair hpair,
      program ▸ asked⟩
  complete cm hcm := by
    rw [CallGraph.Reaches, reached] at hcm
    obtain ⟨pair, hpair, asked⟩ := h.complete cm hcm
    exact ⟨pair, elements.methods cm pair hpair, by rwa [petitions, program]⟩

theorem works (h : s.Petitioned) (st : Works s t) : t.Petitioned :=
  h.grow st.program st.elements (by rw [st.sameCalls]) (st.petitions.trans (List.append_nil _))

/-- When a method is entered, plugins are to be asked about its calls. -/
theorem enter (h : s.Petitioned) {calls : CallGraph} {cm : ContextMethodId}
    (reaches : ∀ x, calls.Reaches x ↔ s.calls.Reaches x ∨ x = cm)
    (st : Extends { s with calls } t) {pair : InContext .method}
    (hpair : s.elements.methods.get? cm = some pair) (enrols : Enrols cm pair.entity s t) :
    t.Petitioned := by
  have program : t.program = s.program := st.program
  have petitions : t.petitions = s.petitions ++ s.program.petitions pair :=
    enrols.petitions pair.context hpair
  refine ⟨fun e he => ?_, fun x hx => ?_⟩
  · rw [petitions, List.mem_append] at he
    obtain old | new := he
    · obtain ⟨x, pair, hx, hpair, asked⟩ := h.sound e old
      exact ⟨x, pair, st.reaches ((reaches x).2 (.inl hx)), st.elements.methods x pair hpair,
        program ▸ asked⟩
    · exact ⟨cm, pair, st.reaches ((reaches cm).2 (.inr rfl)), st.elements.methods cm pair hpair,
        program ▸ new⟩
  · rw [st.sameCalls] at hx
    rw [petitions, program]
    obtain old | rfl := (reaches x).1 hx
    · obtain ⟨pair, hpair, asked⟩ := h.complete x old
      exact ⟨pair, st.elements.methods x pair hpair, List.Subset.trans asked (List.subset_append_left _ _)⟩
    · exact ⟨pair, st.elements.methods x pair hpair, List.subset_append_right _ _⟩

end Solver.Petitioned

namespace Solve

abbrev Petitions (s t : Solver) : Prop := s.Petitioned → t.Petitioned

instance : IsPreorder Solver Petitions where
  refl _ := id
  trans _ _ _ st tu h := tu (st h)

theorem petitions_reachEntries : Relates Petitions reachEntries :=
  relates_reachEntries (fun _ _ st h => h.works st) fun _ _ _ admitted h => by
    cases admitted with
    | again => exact h
    | first _ rest place enrols =>
      exact h.enter (fun _ => CallGraph.reaches_reach) rest place enrols

/-- A call that is announced asks for nothing. -/
theorem petitions_added {caller : ContextMethodId} {edge : CallEdge} {s t : Solver}
    (reached : s.calls.Reaches caller) (added : Added caller edge s t) : Petitions s t := by
  intro h
  cases added with
  | again => exact h
  | @first t _ fresh rest entered linked =>
    have told (u : Solver) (hu : u.Petitioned) : (u.announce (.call edge)).Petitioned := by
      refine hu.grow rfl (.refl _) rfl ?_
      rw [petitions_announce]
      exact List.append_nil _
    have reaches := CallGraph.reaches_add fresh reached
    refine Petitioned.works (told t ?_) linked
    obtain ⟨known, rfl⟩ | ⟨-, pair, hpair, enrols⟩ := entered
    · refine ⟨fun e he => ?_, fun x hx => ?_⟩
      · obtain ⟨x, pair, hx, asked⟩ := h.sound e he
        exact ⟨x, pair, (reaches x).2 (.inl hx), asked⟩
      · exact h.complete x (((reaches x).1 hx).elim id (· ▸ known))
    · exact h.enter reaches rest hpair enrols

theorem petitions_handed {n : NodeId} {s t : Solver} (handed : Handed n s t) : Petitions s t := by
  intro h
  have flushed : Petitioned { s with points := (s.points.flush n).2 } := ⟨h.sound, h.complete⟩
  cases handed with
  | idle => exact h
  | other _ works => exact flushed.works works
  | var _ works =>
    refine (flushed.works works).grow rfl (.refl _) rfl ?_
    rw [petitions_announce]
    exact List.append_nil _

theorem petitions_step : Relates Petitions step :=
  relates_step (fun _ _ st h => h.works st) (fun _ _ _ h => ⟨h.sound, h.complete⟩)
    (fun _ _ _ _ reached added => petitions_added reached added) fun _ _ _ handed =>
      petitions_handed handed

end Solve

end PointsTo
