import PointsTo.Proofs.Configured

/-!
Where tainted values come from: neither the solver nor function values make any, and taint tracking
makes them for calls of sources, and for calls that it has made some for before.
-/
namespace PointsTo

open Facts Solver Solve

variable {s t u : Solver}

namespace Solve

/-! ### Objects that the solver makes -/

theorem makes_reachEntries : Relates (Makes AbstractObject.IsCore) reachEntries :=
  relates_reachEntries (fun _ _ => Asks.makes) fun _ s _ admitted => by
    cases admitted with
    | again => exact refl_of (Makes _) s
    | first _ _ _ enrols => exact enrols.makes

/-- The solver makes no objects but those of the program. -/
theorem makes_step : Relates (Makes AbstractObject.IsCore) step := by
  refine relates_step (fun _ _ => Asks.makes) (fun _ _ _ => makes_of_same rfl)
    (fun _ _ s _ _ added => ?_) fun _ s _ handed => ?_
  · cases added with
    | again => exact refl_of (Makes _) s
    | first _ _ entered linked =>
      obtain ⟨-, rfl⟩ | ⟨-, _, -, enrols⟩ := entered
      · exact linked.makes
      · exact trans_of (Makes _) enrols.makes linked.makes
  · obtain - | ⟨-, works, -, -⟩ | ⟨-, works, -⟩ := handed
    · exact refl_of (Makes _) s
    · exact works.makes
    · exact works.makes

end Solve

theorem Lambda.entered_react (e : Event) : Relates (Alike (EnteredBy Brings)) (plugin.react e) := by
  cases e with
  | method m => exact entered_createValues m
  | contextMethod cm => exact entered_placeValues cm
  | call edge => exact Reaction.relates_solve (entered_linkCall edge)
  | unresolved receiver c site => exact .bind (entered_claim receiver c site) fun _ => .pure
  | objects x delta => exact entered_redispatch x delta

theorem Taint.entered_react {rules : Rules} (e : Event) :
    Relates (Alike (EnteredBy Brings)) ((plugin rules).react e) := by
  cases e with
  | method | contextMethod => exact .pure
  | unresolved => exact .bind .pure fun _ => .pure
  | call edge => exact entered_onCall rules edge
  | objects x delta => exact entered_onObjects x delta

/-! ### Tainted values -/

namespace Solver

/-- A tainted value has been made for a call. -/
def Tainted (s : Solver) (q : CallSiteId) : Prop :=
  ∃ o a, s.elements.heap.get? o = some a ∧ Taint.sourceCall? a = some q

/-- Tainted values are made for no other calls than those that there are some for already, and those
of `Q`. -/
def Taints (Q : CallSiteId → Prop) (s t : Solver) : Prop := ∀ q, t.Tainted q → s.Tainted q ∨ Q q

variable {Q : CallSiteId → Prop}

instance : IsPreorder Solver (Taints Q) where
  refl _ _ := .inl
  trans _ _ _ st tu q h := (tu q h).elim (st q) .inr

theorem Makes.taints {M : AbstractObject → Prop} (h : s.Makes M t)
    (only : ∀ a q, M a → Taint.sourceCall? a = some q → Q q) : s.Taints Q t := by
  rintro q ⟨o, a, ha, tainted⟩
  exact (h o a ha).imp (fun old => ⟨o, a, old, tainted⟩) fun made => only a q made tainted

end Solver

theorem sourceCall?_of_isCore {a : AbstractObject} (h : a.IsCore) : Taint.sourceCall? a = none := by
  obtain ⟨origin, type, container⟩ := a
  cases origin with
  | allocation => rfl
  | mock description site =>
    obtain rfl : description = Solve.stringConcatenation := h
    rfl

theorem Lambda.sourceCall?_of_brings {a : AbstractObject} (h : Brings a) :
    Taint.sourceCall? a = none := by
  obtain ⟨origin, type, container⟩ := a
  cases origin with
  | allocation => rfl
  | mock description site =>
    obtain h | h := h
    · obtain rfl : description = functionValue := eq_of_beq h
      rfl
    · obtain rfl : description = constructedObject := eq_of_beq h
      rfl

/-- Function values make no tainted values. -/
theorem Lambda.taints_of_enteredBy {Q : CallSiteId → Prop} (h : EnteredBy Brings s t) :
    s.Taints Q t :=
  h.makes.taints fun a q made tainted => by cases (sourceCall?_of_brings made).symm.trans tainted

/-- A call of a source. -/
def Solver.CallsSource (s : Solver) (rules : Taint.Rules) (edge : CallEdge) (q : CallSiteId) : Prop :=
  ∃ site callee, s.elements.sites.get? edge.site = some site ∧
    s.elements.methods.get? edge.callee = some callee ∧ site.entity = q ∧
    ∃ rule ∈ rules.sources, rule.method = callee.entity

theorem Solver.CallsSource.grows {rules : Taint.Rules} {edge : CallEdge} {q : CallSiteId}
    (h : s.CallsSource rules edge q) (g : s.Grows t) : t.CallsSource rules edge q := by
  obtain ⟨site, callee, hs, hc, found⟩ := h
  exact ⟨site, callee, g.elements.sites _ site hs, g.elements.methods _ callee hc, found⟩

namespace Taint

variable {rules : Rules} {k : Tracking} {Q : CallSiteId → Prop}

theorem taints_taint (source : CallSiteId) (type : TypeId) :
    Relates (Taints (· = source)) (taint source type) := by
  refine .bind (.modifyGet fun s => ?_) fun o => .modifyGet fun s => ?_
  · refine (makes_of_intern (M := (· = ⟨.mock taintedValue source, type, none⟩)) rfl rfl).taints ?_
    rintro _ q rfl tainted
    exact (Option.some.inj tainted).symm
  · exact Makes.taints (makes_of_same (M := fun _ => False) rfl) fun _ _ => False.elim

/-- Tainted values are carried as values of the calls that they have been made for. -/
theorem taints_carry (objects : Objects) (c : ContextId) (target : VarId) (type : TypeId) :
    Relates (Taints Q) (carry objects c target type) := by
  intro s
  refine .bind (Ensures.mapM (R := fun a b => s = a ∧ a = b)
    (D := fun origin _ => ∀ q, origin = some q → s.Tainted q)
    (fun _ _ ⟨sa, ab⟩ => ⟨sa.trans ab, rfl⟩) (fun _ _ _ ⟨sa, ab⟩ ⟨_, bc⟩ => ⟨sa, ab.trans bc⟩)
    (fun _ _ _ _ => id) ⟨rfl, rfl⟩ ?_) ?_
  · rintro o - _ ⟨-, rfl⟩
    refine .bind ensures_objectAt ?_
    rintro a _ ⟨rfl, ha⟩
    refine .pure ⟨⟨rfl, rfl⟩, fun q tainted => ?_⟩
    obtain ⟨pair, -, heap⟩ := Option.bind_eq_some_iff.1 ha
    exact ⟨_, a, heap, tainted⟩
  rintro origins _ ⟨⟨-, rfl⟩, each⟩
  have copied : Relates (Taints fun q => q ∈ origins.filterMap id)
      ((origins.filterMap id).mapM fun source => taint source type) :=
    .mapM fun source mem => (taints_taint source type).mono fun _ _ made q tainted =>
      (made q tainted).imp_right fun (same : q = source) => same ▸ mem
  refine .bind (copied s) fun copies t st => ?_
  refine (entered_addObjectsIn (M := fun _ => False) _ _ _ t).mono fun _ u tu q tainted => ?_
  obtain ⟨o, a, ha, ht⟩ := tainted
  have old := (tu.makes o a ha).resolve_right id
  refine (st q ⟨o, a, old, ht⟩).elim .inl fun mem => .inl ?_
  obtain ⟨_, horigin, rfl⟩ := List.mem_filterMap.1 mem
  exact each _ horigin q rfl

/-- When a call is added, tainted values are made for it if it is one of a source. -/
theorem taints_onCall (edge : CallEdge) : Ensures (onCall rules edge) (k, s) fun _ st =>
    s.Taints (s.CallsSource rules edge) st.2 := by
  refine .bind (ensures_lookup ensures_siteAt) ?_
  rintro site _ ⟨rfl, hsite⟩
  refine .bind (ensures_lookup ensures_methodAt) ?_
  rintro callee _ ⟨rfl, hcallee⟩
  refine .bind (ensures_lookup ensures_callSite) ?_
  rintro decl _ ⟨rfl, -⟩
  refine Ensures.mono (P := fun _ st => Alike (Taints (s.CallsSource rules edge)) (k, s) st) ?_
    fun _ _ => id
  refine Relates.mono (R := Alike (Taints (s.CallsSource rules edge))) ?_ (fun _ _ => id) (k, s)
  -- the transfers come last, whether or not there is a result
  cases decl.result
  case' some result =>
    refine .bind (.forM fun type mem => Reaction.relates_solve (.bind ?_ fun o => ?_)) fun _ => ?_
    · obtain ⟨rule, found, -⟩ := List.mem_map.1 mem
      obtain ⟨hrule, same⟩ := List.mem_filter.1 found
      refine .modifyGet fun t => (makes_of_intern
        (M := (· = ⟨.mock taintedValue site.entity, type, none⟩)) rfl rfl).taints ?_
      rintro _ q rfl tainted
      exact ⟨site, callee, hsite, hcallee, Option.some.inj tainted, rule, hrule, eq_of_beq same⟩
    · exact (entered_addObjectIn (M := fun _ => False) _ _ _ _).mono fun _ _ entered =>
        entered.makes.taints fun _ _ => False.elim
  all_goals
    refine .forM fun rule _ => ?_
    split
    · refine .bind Reaction.relates_modifyOwn fun _ => .bind Reaction.relates_solver fun _ => ?_
      exact Reaction.relates_solve (taints_carry _ _ _ _)
    · exact .pure

theorem taints_react {e : Event} : Ensures ((plugin rules).react e) (k, s) fun _ st =>
    s.Taints (fun q => ∃ edge, e = .call edge ∧ s.CallsSource rules edge q) st.2 := by
  have quiet {f : Reaction Tracking Unit} (h : ∀ Q, Relates (Alike (Taints Q)) f) (Q) :
      Ensures f (k, s) fun _ st => s.Taints Q st.2 := h Q (k, s)
  cases e with
  | method | contextMethod => exact quiet (fun _ => .pure) _
  | unresolved => exact quiet (fun _ => .bind .pure fun _ => .pure) _
  | call edge =>
    refine (taints_onCall edge).mono fun _ _ made q tainted => ?_
    exact (made q tainted).imp_right fun calls => ⟨edge, rfl, calls⟩
  | objects x delta =>
    refine quiet (fun _ => .bind (Reaction.relates_solve relates_varAt) fun _ =>
      .bind Reaction.relates_own fun _ => ?_) _
    exact .forM fun _ _ => Reaction.relates_solve (taints_carry _ _ _ _)

end Taint

/-! ### Runs -/

/-- Every tainted value has been made for a recorded call of a source. -/
def Solver.Sourced (rules : Taint.Rules) (s : Solver) : Prop :=
  ∀ q, s.Tainted q → ∃ call, s.calls.Records call ∧ s.CallsSource rules call.edge q

theorem Solver.Sourced.grows {rules : Taint.Rules} {Q : CallSiteId → Prop} (h : s.Sourced rules)
    (g : s.Grows t) (made : s.Taints Q t)
    (sources : ∀ q, Q q → ∃ call, t.calls.Records call ∧ t.CallsSource rules call.edge q) :
    t.Sourced rules := by
  intro q tainted
  obtain old | new := made q tainted
  · obtain ⟨call, ⟨i, records⟩, calls⟩ := h q old
    exact ⟨call, ⟨i, g.recorded i call records⟩, calls.grows g⟩
  · exact sources q new

namespace Configuration

variable {c : Configuration} {p : Program} {rules : Taint.Rules}

/-- Function values leave taint tracking to itself, and taint tracking makes tainted values for the
calls of sources that it is told of. -/
theorem ensures_taints (on : c.rules = some rules) {own : Extensions} (e : Event) :
    Ensures (Analysis.dispatch (.all c.plugins) e) (own, s) fun _ st => s.Entered st.2 ∧
      s.Taints (fun q => ∃ edge, e = .call edge ∧ st.2.CallsSource rules edge q) st.2 := by
  refine ensures_dispatch (P := fun _ t => s.Entered t ∧ s.Taints (fun _ => False) t)
    (Q := fun _ t => s.Entered t ∧
      s.Taints (fun q => ∃ edge, e = .call edge ∧ t.CallsSource rules edge q) t)
    (fun _ => ?_) (fun _ => ⟨.refl, refl_of (Taints _) s⟩) (fun rules' on' => ?_) (fun off => ?_) ?_
  · refine (Lambda.entered_react e _).mono fun _ st entered => ?_
    exact ⟨entered.entered, Lambda.taints_of_enteredBy entered⟩
  · cases on.symm.trans on'
    rintro own' t ⟨st, made⟩
    refine ((Taint.entered_react e _).and Taint.taints_react).mono ?_
    rintro _ ⟨k, u⟩ ⟨tu, made'⟩
    refine ⟨st.trans tu.entered, fun q tainted => ?_⟩
    obtain old | ⟨edge, same, calls⟩ := made' q tainted
    · exact .inl ((made q old).resolve_right id)
    · exact .inr ⟨edge, same, calls.grows tu.entered.extends.toGrows⟩
  · rw [on] at off
    cases off
  · rintro own' t text ⟨st, made⟩
    exact ⟨st.tail (.warn t text), made⟩

/-- In a run with taint tracking that finishes, every tainted value has been made for a recorded call of
a source. -/
theorem sourced_of_finished (built : p.Indexed) (owned : p.toCatalog.Scoped)
    (on : c.rules = some rules) {contexts : ContextTable} {fuel : Nat} {r : Run Extensions}
    (ran : analyze fuel (.all c.plugins) {} (.initial p c.selector contexts) = r)
    (finished : r.verdict = .finished) : r.solver.Sourced rules := by
  refine (runs_and_of_finished (J := fun _ s => s.Sourced rules) confines_all built owned
    (fun contexts => ?_) (fun own s e rest runs sourced next => ?_) (fun own s runs sourced => ?_)
    (fun _ _ _ _ => id) ran finished).2.1
  · refine (Solve.makes_reachEntries _).mono fun _ t makes q tainted => ?_
    obtain ⟨o, a, ha, source⟩ := tainted
    obtain old | core := makes o a ha
    · cases old
    · cases (sourceCall?_of_isCore core).symm.trans source
  · refine (ensures_taints on e).mono fun _ st ⟨entered, made⟩ => ?_
    have taken : s.Sourced rules := sourced
    refine Solver.Sourced.grows (s := { s with events := rest }) taken entered.extends.toGrows made ?_
    rintro q ⟨edge, rfl, calls⟩
    obtain ⟨call, ⟨i, records⟩, rfl⟩ := runs.traced.announced edge (by simp [next])
    exact ⟨call, ⟨i, entered.extends.recorded i call records⟩, calls⟩
  · refine ((Solve.ensures_step runs.toInvariant (by
      rw [runs.program, runs.selector]
      exact confines_all.supports) (by rw [runs.program]; exact built)).and
        (Solve.makes_step s)).mono ?_
    rintro _ t ⟨⟨-, g, -, -⟩, makes⟩
    refine sourced.grows g (makes.taints (Q := fun _ => False) fun a q core source => ?_)
      fun _ => False.elim
    cases (sourceCall?_of_isCore core).symm.trans source

end Configuration

end PointsTo
