import PointsTo.Proofs.Delivery.News
import PointsTo.Proofs.Propagation

/-!
The work of the solver announces all that becomes known by it, in order.
-/
namespace PointsTo

open Facts

namespace Solver

variable {s t u : Solver}

/-- What becomes known is announced: news that are added to a chronicle make it one of the new state. -/
def Tells (s t : Solver) : Prop :=
  ∃ news, t.tidings = s.tidings ++ news ∧ ∀ l, s.Chronicles l → t.Chronicles (l ++ news)

theorem Untold.tells (h : s.Untold t) : s.Tells t :=
  ⟨[], by rw [h.tidings, List.append_nil], fun l told => by
    rw [List.append_nil]
    exact told.untold h⟩

instance : IsPreorder Solver Tells where
  refl s := Untold.tells ⟨.refl s, rfl, rfl⟩
  trans _ _ _ := by
    rintro ⟨news, tidings, told⟩ ⟨news', tidings', told'⟩
    refine ⟨news ++ news', ?_, fun l h => ?_⟩
    · rw [tidings', tidings, List.append_assoc]
    · rw [← List.append_assoc]
      exact told' _ (told l h)

/-- Work may be taken from the queues. -/
theorem tells_of_same (program : t.program = s.program)
    (methods : t.reachedMethods = s.reachedMethods) (elements : t.elements = s.elements)
    (calls : t.calls = s.calls) (flows : t.flows = s.flows) (points : t.points = s.points)
    (events : t.events = s.events) : s.Tells t := by
  refine ⟨[], by rw [tidings, events, List.append_nil]; rfl, fun l h => ?_⟩
  have none : ∀ e ∈ ([] : List Event), e.isEntrance = false := by simp
  exact ⟨h.toMusters.append (elements ▸ .refl _) methods (by rw [calls]) none,
    h.toConnects.append (elements ▸ .refl _) program (by rw [calls]) rfl, by
      rw [List.append_nil]
      exact h.toHands.of_same flows points⟩

theorem entering_plain {cm : ContextMethodId} {m : MethodId} :
    (s.entering cm m).filterMap Event.call? = [] ∧
      ∀ x delta, .objects x delta ∉ s.entering cm m := by
  unfold entering
  split <;> exact ⟨rfl, by simp⟩

/-- What a growing state has passed on was passed on before, and stays told when other events are. -/
theorem Hands.extend {l news : List Event} {calls : CallGraph} (h : s.Hands l)
    (st : Extends { s with calls } t) (others : ∀ x delta, .objects x delta ∉ news) :
    t.Hands (l ++ news) := by
  have same : Hands { s with calls } l := h.of_same rfl rfl
  refine same.append (fun x o => same.passed_iff st) (fun n o ho => ?_) others
  rw [st.propagated] at ho
  exact (same.nodes n o ho).imp (st.nodes n)

end Solver

namespace Solve

open Solver

/-- An entry is told once it is reached. -/
theorem tells_reachEntries : Relates Tells reachEntries :=
  relates_reachEntries (fun _ _ works => (Asks.untold works).tells) fun _ s _ admitted => by
    cases admitted with
    | again => exact refl_of Tells s
    | first fresh rest place enrols =>
      refine ⟨_, enrols.tidings, fun l h => ⟨?_, ?_, h.toHands.extend rest entering_plain.2⟩⟩
      · refine h.toMusters.enter rest.elements place enrols ?_
        rw [rest.sameCalls, CallGraph.reached_reach, if_pos fresh]
      · exact h.toConnects.append rest.elements rest.program
          (by rw [rest.sameCalls, CallGraph.calls_reach]) entering_plain.1

/-- The callee of a call is told before it, unless it was told long ago. -/
theorem musters_callee {caller : ContextMethodId} {edge : CallEdge} {s t : Solver}
    (fresh : (s.calls.add caller edge).1 = true) (reached : s.calls.Reaches caller)
    (rest : Extends { s with calls := (s.calls.add caller edge).2 } t)
    (entered : s.calls.Reaches edge.callee ∧ t = { s with calls := (s.calls.add caller edge).2 } ∨
      ¬ s.calls.Reaches edge.callee ∧ ∃ pair, s.elements.methods.get? edge.callee = some pair ∧
        Enrols edge.callee pair.entity s t) :
    ∃ news, t.tidings = s.tidings ++ news ∧ news.filterMap Event.call? = [] ∧
      (∀ x delta, .objects x delta ∉ news) ∧
      ∀ l, s.Musters l → t.Musters (l ++ news) ∧ .contextMethod edge.callee ∈ l ++ news := by
  have order := CallGraph.reached_add fresh reached
  obtain ⟨known, rfl⟩ | ⟨new, pair, place, enrols⟩ := entered
  · rw [if_pos (CallGraph.isReached_iff.2 known), List.append_nil] at order
    refine ⟨[], (List.append_nil _).symm, rfl, nofun, fun l h => ?_⟩
    exact ⟨h.append (.refl _) rfl order nofun,
      List.mem_append.2 (.inl (h.mem_contextMethod.2 known))⟩
  · rw [if_neg fun known => new (CallGraph.isReached_iff.1 known)] at order
    refine ⟨_, enrols.tidings, entering_plain.1, entering_plain.2, fun l h => ?_⟩
    exact ⟨h.enter rest.elements place enrols (by rw [rest.sameCalls, order]),
      List.mem_append.2 (.inr (by simp [entering]))⟩

/-- A call is told after its callee, which may be reached by it. -/
theorem tells_added {caller : ContextMethodId} {edge : CallEdge} {s t : Solver}
    (reached : s.calls.Reaches caller) (encloses : s.Encloses caller edge.site)
    (added : Added caller edge s t) : s.Tells t := by
  cases added with
  | again => exact refl_of Tells s
  | @first t u fresh rest entered linked =>
    refine trans_of Tells ?_ (Asks.untold linked).tells
    obtain ⟨-, flag, -, -, -, records⟩ := (s.calls.add_cases caller edge).resolve_left
      fun old => fresh old.1
    have edges : t.calls.edges = s.calls.edges ++ [edge] := by
      rw [rest.sameCalls, CallGraph.edges_add flag]
    have recorded (call : Call) (h : s.calls.Records call ∨ call = ⟨caller, edge⟩) :
        t.calls.Records call := by
      rw [rest.sameCalls]
      exact (records call).2 h
    obtain ⟨news, tidings, noCall, noObjects, musters⟩ := musters_callee flag reached rest entered
    refine ⟨news ++ [.call edge], ?_, fun l h => ?_⟩
    · rw [tidings_announce, tidings, List.append_assoc]
      rfl
    obtain ⟨mustered, callee⟩ := musters l h.toMusters
    have connects : s.Connects (l ++ news) := h.toConnects.append (.refl _) rfl rfl noCall
    have caller : .contextMethod caller ∈ l ++ news :=
      List.mem_append.2 (.inl (h.mem_contextMethod.2 reached))
    rw [← List.append_assoc]
    refine ⟨?_, ?_, ?_⟩
    · exact mustered.append (.refl _) rfl rfl (by simp [Event.isEntrance])
    · exact connects.record (t := t.announce (.call edge)) rest.elements rest.program edges
        recorded encloses caller callee
    · rw [List.append_assoc]
      exact h.toHands.extend (rest.trans extends_announce) (by simp [noObjects])

theorem tells_processCallEdge (edge : CallEdge) : Relates Tells (processCallEdge edge) := by
  intro s
  refine (ensures_added edge).mono ?_
  rintro _ t ⟨site, decl, hsite, hdecl, reached, added⟩
  have interned : s.Untold (s.internMethod site.context decl.container).2 :=
    Entered.untold (.single (.method s site.context decl.container))
  exact trans_of Tells interned.tells (tells_added reached (encloses_internMethod hsite hdecl) added)

/-- The objects that a variable hands out are told. -/
theorem tells_handed {n : NodeId} {s t : Solver}
    (apart : ∀ m o, o ∈ s.points.pendingOf m → o ∉ s.points.propagatedOf m) (handed : Handed n s t) :
    s.Tells t := by
  -- but for the objects, nothing becomes known
  have rest {v : Solver} (news : List Event) (st : Untold { s with points := (s.points.flush n).2 } v)
      (plain : news.filterMap Event.call? = [] ∧ ∀ e ∈ news, e.isEntrance = false) {l : List Event}
      (h : s.Chronicles l) : v.Musters (l ++ news) ∧ v.Connects (l ++ news) :=
    ⟨h.toMusters.append st.elements st.reachedMethods (by rw [st.sameCalls]) plain.2,
      h.toConnects.append st.elements st.program (by rw [st.sameCalls]) plain.1⟩
  cases handed with
  | idle => exact refl_of Tells s
  | @other _ delta p handed works node other =>
    have st := Asks.untold works
    refine ⟨[], st.tidings.trans (List.append_nil _).symm, fun l h => ?_⟩
    obtain ⟨musters, connects⟩ := rest [] st ⟨rfl, nofun⟩ h
    refine ⟨musters, connects, h.toHands.append (fun x o => ?_) (h.toHands.nodes_flush st.toExtends node)
      nofun⟩
    rw [h.toHands.passed_flush st.toExtends node]
    exact or_iff_left fun new => other x new.1
  | @var v delta x handed works node =>
    have st := Asks.untold works
    refine ⟨[.objects x delta], ?_, fun l h => ?_⟩
    · rw [tidings_announce, st.tidings]
      rfl
    obtain ⟨musters, connects⟩ := rest [.objects x delta] st ⟨rfl, by simp [Event.isEntrance]⟩ h
    have hands := h.toHands.hand apart handed st.toExtends node
    exact ⟨⟨musters.once, musters.methods, musters.introduces, musters.contextMethods⟩,
      ⟨connects.calls, connects.ends⟩, hands.of_same rfl rfl⟩

theorem tells_step {s : Solver} (conserves : s.Conserves) :
    Ensures step s fun _ t => s.Tells t := by
  refine ensures_step_cases (fun edge rest _ => ?_) (fun n rest _ _ => ?_) fun _ => refl_of Tells s
  · have taken : s.Tells { s with callQueue := rest } := tells_of_same rfl rfl rfl rfl rfl rfl rfl
    exact (tells_processCallEdge edge _).mono fun _ _ told => trans_of Tells taken told
  · have taken : s.Tells { s with worklist := rest } := tells_of_same rfl rfl rfl rfl rfl rfl rfl
    exact (handed_processNode n).mono fun _ _ handed =>
      trans_of Tells taken (tells_handed conserves.apart handed)

end Solve
end PointsTo
