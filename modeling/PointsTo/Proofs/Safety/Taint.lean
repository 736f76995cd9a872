import PointsTo.Proofs.Safety.Lambda
import PointsTo.Proofs.Taint.Rules

/-!
Taint tracking keeps a state in order: tainted values are copied between the variables of one call,
and have types of the program.
-/
namespace PointsTo.Taint

open Facts Solve

variable {p : Program} {sel : Selector} {s t : Solver} {c d : ContextId} {m : MethodId}

/-! ### Rules -/

/-- The types of the rules are declared. -/
structure Rules.Fits (rules : Rules) (p : Catalog) : Prop where
  sources : ∀ r ∈ rules.sources, r.type.index < p.types.size
  transfers : ∀ r ∈ rules.transfers, r.type.index < p.types.size

theorem exists_of_bind_eq_ok {α β : Type} {x : Except Fault α} {f : α → Except Fault β} {b : β}
    (h : x >>= f = .ok b) : ∃ a, x = .ok a ∧ f a = .ok b := by
  cases x with
  | error fault => cases h
  | ok a => exact ⟨a, rfl, h⟩

theorem forall_of_mapM {α β : Type} {f : α → Except Fault β} {P : β → Prop}
    (h : ∀ a b, f a = .ok b → P b) {as : List α} {bs : List β} (run : as.mapM f = .ok bs) :
    ∀ b ∈ bs, P b := by
  induction as generalizing bs with
  | nil =>
    cases run
    simp
  | cons a as ih =>
    rw [List.mapM_cons] at run
    obtain ⟨b, hb, run⟩ := exists_of_bind_eq_ok run
    obtain ⟨rest, hrest, run⟩ := exists_of_bind_eq_ok run
    cases run
    exact List.forall_mem_cons.2 ⟨h a b hb, ih hrest⟩

theorem type_lt_size {key name : String} {type : TypeId} (h : Rules.type p key name = .ok type) :
    type.index < p.types.size := by
  unfold Rules.type at h
  split at h
  next found =>
    cases h
    exact Table.lt_size_of_find? found
  next => cases h

/-- What rules are resolved to is declared. -/
theorem fits_of_resolve {w : WrittenRules} {rules : Rules}
    (resolved : Rules.resolve p w = .ok rules) : rules.Fits p.toCatalog := by
  obtain ⟨sources, hsources, resolved⟩ := exists_of_bind_eq_ok resolved
  obtain ⟨sinks, -, resolved⟩ := exists_of_bind_eq_ok resolved
  obtain ⟨transfers, htransfers, resolved⟩ := exists_of_bind_eq_ok resolved
  cases resolved
  refine ⟨forall_of_mapM (fun r b h => ?_) hsources, forall_of_mapM (fun r b h => ?_) htransfers⟩
  · obtain ⟨m, -, h⟩ := exists_of_bind_eq_ok h
    obtain ⟨type, ht, h⟩ := exists_of_bind_eq_ok h
    cases h
    exact type_lt_size ht
  · obtain ⟨m, -, h⟩ := exists_of_bind_eq_ok h
    obtain ⟨-, -, h⟩ := exists_of_bind_eq_ok h
    obtain ⟨-, -, h⟩ := exists_of_bind_eq_ok h
    obtain ⟨type, ht, h⟩ := exists_of_bind_eq_ok h
    cases h
    exact type_lt_size ht

/-! ### Transfers -/

/-- Transfers lead from one variable of a method to another. -/
def Tracks (p : Catalog) (t : Tracking) (_ : Solver) : Prop :=
  ∀ v, ∀ transfer ∈ t.transfersFrom v, (∃ m, p.Owns m v ∧ p.Owns m transfer.1) ∧
    transfer.2.index < p.types.size

theorem Tracks.stable (t : Tracking) (s u : Solver) (h : Tracks p.toCatalog t s) (_ : s.Keeps u) :
    Tracks p.toCatalog t u := h

theorem Tracks.add {t : Tracking} (h : Tracks p.toCatalog t s) {source target : VarId}
    {type : TypeId} (owns : p.Owns m source) (owns' : p.Owns m target)
    (ht : type.index < p.types.size) : Tracks p.toCatalog (t.add source target type) s := by
  unfold Tracking.add
  dsimp only
  split
  · exact h
  · intro v transfer mem
    simp only [Tracking.transfersFrom, Std.TreeMap.getD_insert, Coded.compare_eq_iff] at mem
    split at mem
    next same =>
      subst same
      obtain mem | mem := List.mem_append.1 mem
      · exact h _ transfer mem
      · cases List.mem_singleton.1 mem
        exact ⟨⟨m, owns, owns'⟩, ht⟩
    next => exact h v transfer mem

/-- Tainted values come from call sites. -/
theorem sourceCall?_lt {a : AbstractObject} (makes : p.Makes a) {site : CallSiteId}
    (h : sourceCall? a = some site) : site.index < p.callSites.size := by
  have located := makes.origin
  unfold sourceCall? at h
  split at h
  next description site' origin =>
    split at h
    · cases h
      rw [origin] at located
      exact located.2
    · cases h
  next => cases h

theorem advancing_taint {source : CallSiteId} {type : TypeId}
    (hsource : source.index < p.callSites.size) (ht : type.index < p.types.size) :
    Advancing p sel none (taint source type) s fun o t =>
      ∃ pair, t.elements.objects.get? o = some pair := by
  have allowed : taintedValue ∈ mockDescriptions := by simp [mockDescriptions]
  refine .bind (advancing_mock allowed hsource ht fun _ none => by cases none) fun o t st ho => ?_
  exact (advancing_internObject Elements.knows_emptyId ho).mono fun _ _ _ ho => ⟨_, ho⟩

theorem advancing_carry {objects : Objects} {target : VarId} {type : TypeId}
    (known : ∀ o ∈ objects, ∃ pair, s.elements.objects.get? o = some pair)
    (admits : s.Admits p.toCatalog sel.limit none c target) (ht : type.index < p.types.size) :
    Advancing p sel none (carry objects c target type) s fun _ _ => True := fun hs => by
  have origins : Safe (objects.toList.mapM fun o => return sourceCall? (← objectAt o)) s
      fun origins t => s = t ∧ ∀ origin ∈ origins, ∀ site, origin = some site →
        site.index < p.callSites.size := by
    refine (Safe.mapM (I := fun t => s = t) (D := fun origin _ => ∀ site, origin = some site →
      site.index < p.callSites.size) rfl ?_).mono fun _ _ h => ⟨h.1, h.2.1⟩
    rintro o ho _ rfl
    obtain ⟨a, ha, makes⟩ := hs.object? (known o (HybridSet.mem_toList.1 ho))
    refine .bind (safe_objectAt ha) ?_
    rintro _ _ ⟨rfl, rfl⟩
    exact .pure ⟨rfl, fun site => sourceCall?_lt makes, fun _ => id⟩
  refine Advancing.afterAny origins (fun origins located => ?_) hs
  refine .bind (P := fun copies t => ∀ o ∈ copies, ∃ pair, t.elements.objects.get? o = some pair)
    (fun hs => ?_) fun copies t st made => ?_
  · refine (Safe.mapM (I := Advances p sel none s) (D := fun o t =>
      ∃ pair, t.elements.objects.get? o = some pair) (.refl hs) fun source mem t st => ?_).mono
      fun _ _ h => ⟨h.1, h.2.1⟩
    obtain ⟨origin, horigin, same⟩ := List.mem_filterMap.1 mem
    exact (advancing_taint (located origin horigin source same) ht st.grounded).mono
      fun o u ⟨tu, ho⟩ => ⟨st.trans tu, ho, fun o' => .imp (tu.elements.objects o')⟩
  · exact .modify (fun hv => hv.addObjectsIn (admits.later st) fun o ho =>
      made o (HybridSet.mem_ofList.1 ho)) trivial

/-! ### Events -/

theorem known_objectsIn (hs : Grounded p sel none s) {v : VarId} {o : ContextObjectId}
    (ho : o ∈ s.objectsIn c v) : ∃ pair, s.elements.objects.get? o = some pair := by
  unfold Solver.objectsIn at ho
  split at ho
  · obtain ⟨n, -, mem⟩ := Solver.mem_pointsTo_iff.1 ho
    exact (hs.points n o mem).2
  · exact absurd ho HybridSet.not_mem_empty

theorem reacting_onCall {rules : Rules} (fits : rules.Fits p.toCatalog) {st : Tracking × Solver}
    {e : CallEdge} (settled : st.2.Settled p.toCatalog e) :
    Reacting p sel (Tracks p.toCatalog) (onCall rules e) st fun _ _ => True := fun hs hJ => by
  obtain ⟨c, site, decl, hsite, hd, caller⟩ := settled.site
  obtain ⟨⟨d, m⟩, hcallee⟩ := settled.callee
  have owns (v : VarId) (hv : v ∈ decl.vars) : p.Owns decl.container v :=
    hs.wellFormed.owned.sites site decl hd v hv
  refine Reacting.after (safe_siteAt hsite) (.after (safe_methodAt hcallee)
    (.after (safe_callSite (d := decl) (by rw [hs.program]; exact hd)) ?_)) hs hJ
  -- the transfers come last, whether or not there is a result
  cases hresult : decl.result
  case' none => have su := Solver.Later.refl st.2
  case' some result =>
    refine .bind (.forM fun type mem u su => ?_) fun _ u su _ => ?_
    · obtain ⟨r, hr, rfl⟩ := List.mem_map.1 mem
      have admits := hs.admits caller (owns result (by simp [CallSite.vars, hresult]))
      have allowed : taintedValue ∈ mockDescriptions := by simp [mockDescriptions]
      have tainted : Advancing p sel none (do
          let o ← change (·.mock taintedValue site r.type none)
          modify (·.addObjectIn c result ContextTable.emptyId o) : Solve Unit) u.2
          fun _ _ => True :=
        .bind (advancing_mock allowed (Roster.lt_size hd) (fits.sources r (List.mem_filter.1 hr).1)
          fun _ none => by cases none) fun o v uv ho =>
            advancing_addObjectIn (admits.later (su.trans uv)) Elements.knows_emptyId ho
      exact .solve Tracks.stable tainted
  all_goals
    refine .forM fun rule mem v uv => ?_
    have ht := fits.transfers rule (List.mem_filter.1 mem).1
    split
    next _ source target same =>
      obtain ⟨hsource, htarget⟩ := Prod.mk.inj same
      have hs' := owns source (mem_vars_of_varAt? hsource)
      have ht' := owns target (mem_vars_of_varAt? htarget)
      refine .bind (.modifyOwn (Q := fun _ w => w.2 = v.2) (fun hv => hv.add hs' ht' ht) rfl) ?_
      rintro _ ⟨own, w⟩ - rfl
      refine .afterSolver fun hw hJ => ?_
      exact Reacting.solve Tracks.stable (advancing_carry (fun o => known_objectsIn hw)
        ((hs.admits caller ht').later (su.trans uv)) ht) hw hJ
    next => exact .pure trivial

theorem reacting_onObjects {st : Tracking × Solver} {x : ContextVarId} {v : VarId}
    {delta : Objects} (hx : st.2.elements.vars.get? x = some ⟨c, v⟩) (owns : p.Owns m v)
    (reached : st.2.Reached c m)
    (known : ∀ o ∈ delta, ∃ pair, st.2.elements.objects.get? o = some pair) :
    Reacting p sel (Tracks p.toCatalog) (onObjects x delta) st fun _ _ => True := fun hs hJ => by
  refine Reacting.after (safe_varAt hx) (.afterOwn ?_) hs hJ
  refine .forM fun (target, type) mem u su => ?_
  obtain ⟨⟨m', source, owns'⟩, ht⟩ := hJ v _ mem
  cases owns.unique source
  exact .solve Tracks.stable (advancing_carry
    (fun o ho => (known o ho).imp (su.elements.objects o))
    ((hs.admits reached owns').later su) ht)

/-! ### Flows -/

theorem exists_bind {α β : Type} {x : Option α} {f : α → Option β} {a : α} (hx : x = some a)
    (hf : ∃ b, f a = some b) : ∃ b, x >>= f = some b := by
  subst hx
  exact hf

section Answers

variable (hs : Grounded p sel none s)
include hs

theorem exists_callersOf? (m : MethodId) : ∃ calls, s.callersOf? m = some calls ∧
    ∀ call ∈ calls, ∃ decl, p.callSites[call]? = some decl := by
  have known : ∀ e ∈ (s.elements.methods.copiesOf m).flatMap s.calls.callersOf,
      ∃ site, s.siteOf? e.site = some site ∧ ∃ decl, p.callSites[site]? = some decl := by
    intro e he
    obtain ⟨cm, -, he⟩ := List.mem_flatMap.1 he
    obtain ⟨call, hcall, rfl, -⟩ := CallGraph.mem_callersOf.1 he
    obtain ⟨c, site, decl, hsite, hd, -⟩ := (hs.recorded call hcall).site
    exact ⟨site, by rw [Solver.siteOf?, hsite]; rfl, decl, hd⟩
  obtain ⟨calls, hcalls, mem⟩ := exists_mapM fun e he => (known e he).imp fun _ => And.left
  refine ⟨_, by rw [Solver.callersOf?, hcalls]; rfl, fun call hcall => ?_⟩
  obtain ⟨e, he, hsite⟩ := (mem call).1 (mem_ascending.1 hcall)
  obtain ⟨site, hsite', hd⟩ := known e he
  cases hsite.symm.trans hsite'
  exact hd

theorem exists_objectsOf? (v : VarId) : ∃ objects, s.objectsOf? v = some objects ∧
    ∀ o ∈ objects, ∃ a, s.elements.heap.get? o = some a := by
  have known : ∀ x ∈ (s.elements.vars.copiesOf v).flatMap fun copy => (s.varObjects copy).toList,
      ∃ o, (s.elements.objects.get? x).map InContext.entity = some o ∧
        ∃ a, s.elements.heap.get? o = some a := by
    intro x hx
    obtain ⟨copy, -, hx⟩ := List.mem_flatMap.1 hx
    obtain ⟨n, -, mem⟩ := Solver.mem_pointsTo_iff.1 (HybridSet.mem_toList.1 hx)
    obtain ⟨pair, hpair⟩ := (hs.points n x mem).2
    exact ⟨pair.entity, by rw [hpair]; rfl, (hs.elements.objects x pair hpair).2⟩
  obtain ⟨objects, hobjects, mem⟩ := exists_mapM fun x hx => (known x hx).imp fun _ => And.left
  refine ⟨_, by rw [Solver.objectsOf?, hobjects]; rfl, fun o ho => ?_⟩
  obtain ⟨x, hx, hentity⟩ := (mem o).1 (mem_ascending.1 ho)
  obtain ⟨o', hentity', ha⟩ := known x hx
  cases hentity.symm.trans hentity'
  exact ha

theorem exists_flowsInto? (sink : SinkRule MethodId) : ∃ flows, flowsInto? s sink = some flows := by
  obtain ⟨calls, hcalls, declared⟩ := exists_callersOf? hs sink.method
  refine exists_bind hcalls (Exists.elim (exists_mapM fun call hcall => ?_) fun flows h =>
    exists_bind h.1 ⟨flows.flatten, rfl⟩)
  obtain ⟨decl, hd⟩ := declared call hcall
  refine exists_bind (a := decl) (by rw [hs.program, hd]) ?_
  split
  next => exact ⟨_, rfl⟩
  next arg _ =>
    obtain ⟨objects, hobjects, known⟩ := exists_objectsOf? hs arg
    obtain ⟨values, hvalues, -⟩ := exists_mapM known
    exact exists_bind hobjects (exists_bind hvalues ⟨_, rfl⟩)

/-- The flows can be told. -/
theorem exists_flows? (sinks : List (SinkRule MethodId)) : ∃ flows, flows? s sinks = some flows := by
  obtain ⟨flows, hflows, -⟩ := exists_mapM fun sink (_ : sink ∈ sinks) => exists_flowsInto? hs sink
  exact ⟨_, by rw [flows?, hflows]; rfl⟩

end Answers

theorem secure_plugin {rules : Rules} (fits : rules.Fits p.toCatalog) :
    (plugin rules).Secure p sel (Tracks p.toCatalog) where
  onStart _ := .pure trivial
  onMethod _ _ _ := .pure trivial
  onContextMethod _ _ _ := .pure trivial
  onCall _ _ settled := reacting_onCall fits settled
  onUnresolved _ _ _ _ _ := .pure trivial
  onObjects _ _ _ h := by
    obtain ⟨⟨c, v, m, hx, owns, reached⟩, known⟩ := h
    exact reacting_onObjects hx owns reached known
  onFinish st := fun hs hJ => by
    obtain ⟨flows, h⟩ := exists_flows? hs rules.sinks
    have stored : Advancing p sel none (modify (·.store findingKey (.flows flows)) : Solve Unit)
        st.2 fun _ _ => True := .modify (fun hs => hs.store) trivial
    exact Reacting.afterSolver (.after (safe_known h) (.solve Tracks.stable stored)) hs hJ

end PointsTo.Taint
