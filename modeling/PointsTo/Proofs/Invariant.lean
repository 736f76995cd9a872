import PointsTo.Proofs.Contributions

/-!
The invariant of solving: whatever has been reached, passed on or recorded has contributed all that
its constraint demands.
-/
namespace PointsTo

open Facts

/-- Sets of facts that the constraints never lead out of. Objects only count where they flow into
variables of reached methods, and calls only where they start in reached methods. -/
structure Solution.Supports (F : Solution) (p : Program) (sel : Selector) : Prop where
  entries : ∀ m ∈ p.entries, F.reached [] m
  bodies : ∀ c m, F.reached c m → (F.demands p).Body p sel c m
  arrivals : ∀ c (v : VarId) decl w, p.vars[v]? = some decl → F.reached c decl.method →
    F.points (.var c v) w → (F.demands p).Arrival p sel c v w
  callees : ∀ via c site c' m, (F.demands p).calls via c site c' m → F.reached c' m
  links : ∀ via c site c' m, (F.demands p).calls via c site c' m → via.IsCore →
    (F.demands p).Link p via c site c' m

structure Invariant (F : Solution) (s : Solver) : Prop where
  sound : Sound F s
  scheduled : s.Scheduled
  /-- What a node has passed on has arrived. -/
  arrived : ∀ f, s.flows.Has f → ∀ o ∈ s.points.propagatedOf f.source,
    s.Carried f.kind f.target o
  /-- Reached methods have contributed. -/
  entered : ∀ cm, s.calls.Reaches cm → ∀ c m, s.elements.copy? s.elements.methods cm = some (c, m) →
    s.reading.Body s.program s.selector c m
  /-- The statements that wait for a variable have seen all that it has passed on. -/
  served : ∀ n o, o ∈ s.points.propagatedOf n → ∀ c v w, s.place? n = some (.var c v) →
    s.elements.value? o = some w → s.reading.Arrival s.program s.selector c v w
  /-- Recorded calls that no plugin contributes have contributed. -/
  linked : ∀ call, s.calls.Records call → ∀ via c site c' m, via.IsCore →
    s.elements.via? call.edge.kind = some via →
    s.elements.copy? s.elements.sites call.edge.site = some (c, site) →
    s.elements.copy? s.elements.methods call.edge.callee = some (c', m) →
    s.reading.Link s.program via c site c' m
  ends : ∀ call, s.calls.Records call →
    s.calls.Reaches call.caller ∧ s.calls.Reaches call.edge.callee

namespace Invariant

variable {F : Solution} {s t : Solver}

theorem conserves (hi : Invariant F s) : s.Conserves := ⟨hi.scheduled, hi.arrived⟩

/-- The invariant survives growth when no object is lost and all that is new has contributed. -/
theorem of_grows (hi : Invariant F s) (g : s.Grows t) (sound : Sound F t) (conserves : t.Conserves)
    (entered : ∀ cm, t.calls.Reaches cm → s.calls.Reaches cm ∨
      ∀ c m, t.elements.copy? t.elements.methods cm = some (c, m) →
        t.reading.Body s.program s.selector c m)
    (served : ∀ n o, o ∈ t.points.propagatedOf n → o ∈ s.points.propagatedOf n ∨
      ∀ c v w, t.place? n = some (.var c v) → t.elements.value? o = some w →
        t.reading.Arrival s.program s.selector c v w)
    (linked : ∀ call, t.calls.Records call → s.calls.Records call ∨
      ∀ via c site c' m, via.IsCore → t.elements.via? call.edge.kind = some via →
        t.elements.copy? t.elements.sites call.edge.site = some (c, site) →
        t.elements.copy? t.elements.methods call.edge.callee = some (c', m) →
        t.reading.Link s.program via c site c' m)
    (ends : ∀ call, t.calls.Records call → s.calls.Records call ∨
      t.calls.Reaches call.caller ∧ t.calls.Reaches call.edge.callee) : Invariant F t where
  sound := sound
  scheduled := conserves.toScheduled
  arrived := conserves.arrived
  entered cm hcm c m hm := by
    rw [g.program, g.selector]
    obtain old | new := entered cm hcm
    · obtain ⟨c', m', hm', -⟩ := hi.sound.reached cm old
      cases hm.symm.trans (g.elements.method? hm')
      exact g.reading.body_mono (hi.entered cm old _ _ hm')
    · exact new c m hm
  served n o ho c v w hn hw := by
    rw [g.program, g.selector]
    obtain old | new := served n o ho
    · obtain ⟨P, w', hP, hw', -⟩ := hi.sound.points n o (PendingStore.mem_all.2 (.inr old))
      cases hn.symm.trans (g.place? hP)
      cases hw.symm.trans (g.elements.value? hw')
      exact g.reading.arrival_mono (hi.served n o old _ _ _ hP hw')
    · exact new c v w hn hw
  linked call hc via c site c' m core hv hs hm := by
    rw [g.program]
    obtain old | new := linked call hc
    · obtain ⟨via', d, site', d', m', hv', hs', hm', -⟩ := hi.sound.recorded call old
      cases hv.symm.trans (g.elements.via? hv')
      cases hs.symm.trans (g.elements.site? hs')
      cases hm.symm.trans (g.elements.method? hm')
      exact (hi.linked call old _ _ _ _ _ core hv' hs' hm').mono g.reading.carries
    · exact new via c site c' m core hv hs hm
  ends call hc := by
    obtain old | new := ends call hc
    · exact (hi.ends call old).imp g.reaches g.reaches
    · exact new

/-- Additions between two pieces of work keep the invariant. -/
theorem adds (hi : Invariant F s) (st : Adds F s t) : Invariant F t := by
  refine hi.of_grows st.toGrows st.sound (st.toExtends.conserves hi.conserves)
    (fun cm hcm => .inl ?_) (fun n o ho => .inl ?_) (fun call hc => .inl ?_) fun call hc => .inl ?_
  · rwa [st.sameCalls] at hcm
  · rwa [st.propagated] at ho
  · rwa [st.sameCalls] at hc
  · rwa [st.sameCalls] at hc

end Invariant

/-- What a piece of work does is announced: the objects that a variable passes on, the calls that
have no target on them, and the calls that are recorded. -/
structure Solver.Told (s t : Solver) : Prop where
  kept : s.events.toList <+: t.events.toList
  objects : ∀ n o, o ∈ t.points.propagatedOf n → o ∈ s.points.propagatedOf n ∨
    ∀ x, t.flows.pointer? n = some (.var x) →
      ∃ delta : Objects, o ∈ delta ∧ Event.objects x delta ∈ t.events.toList
  failures : ∀ n o, o ∈ t.points.propagatedOf n → o ∈ s.points.propagatedOf n ∨
    ∀ c v w, t.place? n = some (.var c v) → t.elements.value? o = some w →
      ∀ site, s.program.Fails v site w → t.Heralds c site w
  calls : ∀ call, t.calls.Records call → s.calls.Records call ∨
    Event.call call.edge ∈ t.events.toList

/-- No object is passed on and no call is recorded. -/
structure Solver.Still (s t : Solver) : Prop where
  kept : s.events.toList <+: t.events.toList
  propagated : ∀ n, t.points.propagatedOf n = s.points.propagatedOf n
  records : ∀ call, t.calls.Records call → s.calls.Records call

namespace Solver

variable {s t u : Solver}

theorem Extends.still (h : s.Extends t) : s.Still t :=
  ⟨h.announced, h.propagated, fun _ hc => h.sameCalls ▸ hc⟩

namespace Still

theorem trans (st : s.Still t) (tu : t.Still u) : s.Still u :=
  ⟨st.kept.trans tu.kept, fun n => (tu.propagated n).trans (st.propagated n),
    fun call hc => st.records call (tu.records call hc)⟩

theorem told (h : s.Still t) : s.Told t where
  kept := h.kept
  objects n _ ho := .inl (h.propagated n ▸ ho)
  failures n _ ho := .inl (h.propagated n ▸ ho)
  calls call hc := .inl (h.records call hc)

end Still

end Solver

namespace Solve

variable {F : Solution} {s : Solver}

/-! ### Reaching methods -/

theorem grows_reach (cm : ContextMethodId) :
    s.Grows { s with calls := (s.calls.reach cm).2 } :=
  { Solver.Grows.refl s with
    reached := CallGraph.within_reach
    recorded := by
      rw [CallGraph.calls_reach]
      exact .refl _
    calls := fun _ => .of_queue }

theorem sound_reach (hs : Sound F s) {cm : ContextMethodId} {c : Situation} {m : MethodId}
    (hm : s.elements.copy? s.elements.methods cm = some (c, m)) (reached : F.reached c m) :
    Sound F { s with calls := (s.calls.reach cm).2 } :=
  { hs with
    recorded := fun call hc => by
      simp only [CallGraph.Records, CallGraph.calls_reach] at hc
      exact hs.recorded call hc
    reached := fun cm' hcm => by
      obtain old | rfl := CallGraph.reaches_reach.1 hcm
      · exact hs.reached cm' old
      · exact ⟨c, m, hm, reached⟩ }

theorem ensures_reach (hi : Invariant F s) (supports : F.Supports s.program s.selector)
    {cm : ContextMethodId} {c : Situation} {m : MethodId}
    (hm : s.elements.copy? s.elements.methods cm = some (c, m)) (reached : F.reached c m) :
    Ensures (reach cm) s fun _ t =>
      Invariant F t ∧ s.Grows t ∧ s.Still t ∧ t.calls.Reaches cm := by
  refine .bind ensures_change ?_
  rintro _ _ ⟨rfl, rfl⟩
  obtain ⟨old, eq⟩ | ⟨fresh, flag, -, -, -⟩ := s.calls.reach_cases cm
  · simp only [eq]
    exact .pure ⟨hi, .refl s, (Solver.Extends.refl s).still, old⟩
  · simp only [flag, if_true]
    have sound := sound_reach hi.sound hm reached
    have grows : s.Grows _ := grows_reach cm
    refine (ensures_enter sound hm reached (supports.bodies c m reached)).mono ?_
    rintro _ t ⟨adds, body⟩
    have all := grows.trans adds.toGrows
    have reaches : ∀ x, t.calls.Reaches x ↔ s.calls.Reaches x ∨ x = cm := fun x => by
      rw [adds.sameCalls]
      exact CallGraph.reaches_reach
    have records : ∀ call, t.calls.Records call → s.calls.Records call := fun call hc => by
      rw [adds.sameCalls] at hc
      simp only [CallGraph.Records, CallGraph.calls_reach] at hc
      exact hc
    refine ⟨hi.of_grows all adds.sound (adds.toExtends.conserves (hi.conserves.withCalls _ _))
      (fun x hx => ?_) (fun n o ho => .inl ?_) (fun call hc => .inl (records call hc))
      (fun call hc => .inl (records call hc)), all, ⟨adds.announced, adds.propagated, records⟩,
      (reaches cm).2 (.inr rfl)⟩
    · obtain old | rfl := (reaches x).1 hx
      · exact .inl old
      · refine .inr fun c' m' hm' => ?_
        cases hm'.symm.trans (all.elements.method? hm)
        exact body
    · rwa [adds.propagated] at ho

/-- All entries are reached before the first piece of work. -/
theorem ensures_reachEntries (hi : Invariant F s) (supports : F.Supports s.program s.selector) :
    Ensures reachEntries s fun _ t => Invariant F t ∧ s.Grows t ∧ s.Still t ∧
      ∀ m ∈ s.program.entries,
        ∃ cm, t.elements.copy? t.elements.methods cm = some ([], m) ∧ t.calls.Reaches cm := by
  refine .bind ensures_catalog ?_
  rintro _ _ ⟨rfl, rfl⟩
  have each : ∀ l ⊆ s.program.entries, ∀ t, s.Grows t → Invariant F t →
      Ensures (l.forM fun entry => do
        reach (← change (·.internMethod ContextTable.emptyId entry))) t fun _ u =>
        Invariant F u ∧ t.Grows u ∧ t.Still u ∧ ∀ m ∈ l,
          ∃ cm, u.elements.copy? u.elements.methods cm = some ([], m) ∧ u.calls.Reaches cm := by
    intro l
    induction l with
    | nil => exact fun _ t _ hi => .pure ⟨hi, .refl t, (Solver.Extends.refl t).still, by simp⟩
    | cons entry l ih =>
      intro sub t st hi
      refine .bind (P := fun _ u => Invariant F u ∧ t.Grows u ∧ t.Still u ∧
        ∃ cm, u.elements.copy? u.elements.methods cm = some ([], entry) ∧ u.calls.Reaches cm) ?_ ?_
      · refine .bind ensures_change ?_
        rintro cm _ ⟨rfl, rfl⟩
        obtain ⟨adds, hm⟩ := hi.sound.internMethod Elements.situation?_emptyId (m := entry)
        have same := st.trans adds.toGrows
        refine (ensures_reach (hi.adds adds) (by rw [same.program, same.selector]; exact supports)
          hm (supports.entries entry (sub (by simp)))).mono ?_
        rintro _ u ⟨hu, tu, still, reached⟩
        exact ⟨hu, adds.toGrows.trans tu, adds.still.trans still, _, tu.elements.method? hm,
          reached⟩
      · rintro _ u ⟨hu, tu, still, cm, hm, reached⟩
        refine (ih (fun m hm => sub (by simp [hm])) u (st.trans tu) hu).mono ?_
        rintro _ v ⟨hv, uv, still', rest⟩
        exact ⟨hv, tu.trans uv, still.trans still', List.forall_mem_cons.2
          ⟨⟨cm, uv.elements.method? hm, uv.reaches reached⟩, rest⟩⟩
  exact each _ (List.Subset.refl _) s (.refl s) hi

/-! ### One piece of work -/

theorem sound_recordCall (hs : Sound F s) {caller : ContextMethodId} {edge : CallEdge}
    (call : s.Justifies (F.demands s.program) edge)
    (callerReached : ∃ c m, s.elements.copy? s.elements.methods caller = some (c, m) ∧
      F.reached c m)
    (calleeReached : ∃ c m, s.elements.copy? s.elements.methods edge.callee = some (c, m) ∧
      F.reached c m) :
    Sound F { s with calls := (s.calls.add caller edge).2 } := by
  obtain ⟨-, eq⟩ | ⟨-, -, -, -, reaches, records⟩ := s.calls.add_cases caller edge
  · simp only [eq]
    exact hs
  · exact { hs with
      recorded := fun c hc => by
        obtain old | rfl := (records c).1 hc
        · exact hs.recorded c old
        · exact call
      reached := fun m hm => by
        obtain old | rfl | rfl := (reaches m).1 hm
        · exact hs.reached m old
        · exact callerReached
        · exact calleeReached }

/-- What becomes of a call that has just been recorded. -/
theorem ensures_contributeCall (hs : Sound F s) (pair : InContext .callSite)
    (supports : F.Supports s.program s.selector) {edge : CallEdge} {via : Via} {c c' : Situation}
    {m : MethodId}
    (hv : s.elements.via? edge.kind = some via)
    (hpair : s.elements.sites.get? edge.site = some pair)
    (hsite : s.elements.situation? pair.context = some c)
    (hm : s.elements.copy? s.elements.methods edge.callee = some (c', m))
    (granted : (F.demands s.program).calls via c pair.entity c' m) (calleeIsNew : Bool) :
    Ensures (do
      if calleeIsNew then enter edge.callee
      modify (·.announce (.call edge))
      match edge.kind with
      | .extension .. => return
      | kind => linkCall pair (← methodAt edge.callee) kind) s fun _ t =>
        Adds F s t ∧ Event.call edge ∈ t.events.toList ∧
          (calleeIsNew = true → t.reading.Body s.program s.selector c' m) ∧
          (via.IsCore → t.reading.Link s.program via c pair.entity c' m) := by
  have reached := supports.callees _ _ _ _ _ granted
  have rest {t : Solver} (st : Adds F s t) : Ensures (do
      modify (·.announce (.call edge))
      match edge.kind with
      | .extension .. => return
      | kind => linkCall pair (← methodAt edge.callee) kind : Solve Unit) t fun _ u =>
        Adds F t u ∧ Event.call edge ∈ u.events.toList ∧
          (via.IsCore → u.reading.Link s.program via c pair.entity c' m) := by
    refine .bind ensures_modify ?_
    rintro _ _ rfl
    have tu : Adds F t _ := st.sound.announce (e := .call edge)
      ⟨via, c, pair.entity, c', m, st.elements.via? hv,
        st.elements.site? (Elements.copy?_eq_some_iff.2 ⟨_, hpair, hsite⟩),
        st.elements.method? hm, by rw [st.program]; exact granted⟩
    have su := st.trans tu
    have new : Event.call edge ∈ (t.announce (.call edge)).events.toList :=
      Queue.mem_push.2 (.inr rfl)
    have link {kind : CallEdgeKind} (same : edge.kind = kind) (core : via.IsCore)
        (special : kind = .special ↔ via = .special) :
        Ensures (do linkCall pair (← methodAt edge.callee) kind) (t.announce (.call edge))
          fun _ u => Adds F t u ∧ Event.call edge ∈ u.events.toList ∧
            (via.IsCore → u.reading.Link s.program via c pair.entity c' m) := by
      obtain ⟨d, hd, hτ⟩ := Elements.copy?_eq_some_iff.1 (su.elements.method? hm)
      refine .bind ensures_methodAt ?_
      rintro callee _ ⟨rfl, hc⟩
      cases hd.symm.trans hc
      have spec := ensures_linkCall su.sound pair ⟨d, m⟩
        (su.elements.situation? hsite) hτ special
        (by rw [su.program]; exact supports.links _ _ _ _ _ granted core)
      rw [su.program] at spec
      exact spec.mono fun _ u ⟨adds, linked⟩ =>
        ⟨tu.trans adds, adds.announced.subset new, fun _ => linked⟩
    cases hk : edge.kind with
    | extension tag origin =>
      rw [hk] at hv
      obtain ⟨_, -, rfl⟩ := Option.map_eq_some_iff.1 hv
      exact .pure ⟨tu, new, False.elim⟩
    | static =>
      rw [hk] at hv
      cases hv
      exact link hk trivial (by simp)
    | special =>
      rw [hk] at hv
      cases hv
      exact link hk trivial (by simp)
    | virtual =>
      rw [hk] at hv
      cases hv
      exact link hk trivial (by simp)
    | interface =>
      rw [hk] at hv
      cases hv
      exact link hk trivial (by simp)
  cases calleeIsNew with
  | false =>
    refine (rest (.refl hs)).mono fun _ t ⟨adds, told, linked⟩ => ⟨adds, told, ?_, linked⟩
    exact fun h => absurd h Bool.false_ne_true
  | true =>
    refine .bind (ensures_enter hs hm reached (supports.bodies c' m reached)) ?_
    rintro _ t ⟨st, body⟩
    refine (rest st).mono fun _ u ⟨adds, told, linked⟩ => ⟨st.trans adds, told, fun _ => ?_, linked⟩
    exact adds.reading.body_mono body

theorem grows_addCall {caller : ContextMethodId} {edge : CallEdge} :
    s.Grows { s with calls := (s.calls.add caller edge).2 } := by
  obtain ⟨-, eq⟩ | ⟨-, -, reached, recorded, -⟩ := s.calls.add_cases caller edge
  · rw [eq]
    exact .refl s
  · exact { Solver.Grows.refl s with
      reached := reached
      recorded := recorded
      calls := fun e he => .of_queue he }

/-- Taking a call off the queue loses nothing when the call is recorded. -/
theorem grows_of_popCall {p t : Solver} {edge : CallEdge} {rest : Queue CallEdge}
    (pop : p = { s with callQueue := rest }) (next : s.callQueue.toList = edge :: rest.toList)
    (pt : p.Grows t) (found : t.Pending edge.site edge.callee) : s.Grows t := by
  subst pop
  exact {
    program := pt.program
    selector := pt.selector
    elements := pt.elements
    nodes := pt.nodes
    edges := pt.edges
    objects := pt.objects
    reached := pt.reached
    recorded := pt.recorded
    calls := fun e he => by
      rw [next] at he
      obtain rfl | he := List.mem_cons.1 he
      · exact found
      · exact pt.calls e he }

/-- The invariant after a call has been taken off the queue (`p`), recorded (`v`), and has
contributed (`t`). -/
theorem invariant_of_call {p u v t : Solver} {caller : ContextMethodId} {edge : CallEdge}
    {rest : Queue CallEdge} (hi : Invariant F s) (pop : p = { s with callQueue := rest })
    (pu : Adds F p u) (record : v = { u with calls := (u.calls.add caller edge).2 })
    (sv : s.Grows v) (vt : Adds F v t)
    (entered : ∀ cm, v.calls.Reaches cm → s.calls.Reaches cm ∨
      ∀ c m, t.elements.copy? t.elements.methods cm = some (c, m) →
        t.reading.Body s.program s.selector c m)
    (linked : ∀ call, v.calls.Records call → s.calls.Records call ∨
      (∀ via c site c' m, via.IsCore → t.elements.via? call.edge.kind = some via →
        t.elements.copy? t.elements.sites call.edge.site = some (c, site) →
        t.elements.copy? t.elements.methods call.edge.callee = some (c', m) →
        t.reading.Link s.program via c site c' m) ∧
      v.calls.Reaches call.caller ∧ v.calls.Reaches call.edge.callee) : Invariant F t := by
  have propagated n : t.points.propagatedOf n = s.points.propagatedOf n := by
    rw [vt.propagated, record, pu.propagated, pop]
  have conserves : v.Conserves := by
    rw [record]
    exact (pu.toExtends.conserves (pop ▸ hi.conserves.withCalls _ _)).withCalls _ _
  refine hi.of_grows (sv.trans vt.toGrows) vt.sound (vt.toExtends.conserves conserves)
    (fun cm hcm => ?_) (fun n o ho => .inl ?_) (fun call hc => ?_) fun call hc => ?_
  · exact entered cm (vt.sameCalls ▸ hcm)
  · rwa [propagated] at ho
  · exact (linked call (vt.sameCalls ▸ hc)).imp_right And.left
  · rw [vt.sameCalls]
    exact (linked call (vt.sameCalls ▸ hc)).imp_right And.right

/-- The next call is recorded and contributes. -/
theorem ensures_processCallEdge {p : Solver} {edge : CallEdge} {rest : Queue CallEdge}
    (hi : Invariant F s) (supports : F.Supports s.program s.selector)
    (next : s.callQueue.toList = edge :: rest.toList) (pop : p = { s with callQueue := rest }) :
    Ensures (processCallEdge edge) p fun _ t => Invariant F t ∧ s.Grows t ∧ s.Told t := by
  obtain ⟨via, c, site, c', m, hv, hsite, hm, granted⟩ :=
    hi.sound.queued edge (by simp [next])
  have popped : Sound F p := by
    rw [pop]
    exact { hi.sound with queued := fun e he => hi.sound.queued e (by simp [next, he]) }
  have elements : p.elements = s.elements := by rw [pop]
  have program : p.program = s.program := by rw [pop]
  obtain ⟨d, hd, hσ⟩ := Elements.copy?_eq_some_iff.1 hsite
  refine .bind ensures_siteAt ?_
  rintro pair _ ⟨rfl, hpair⟩
  rw [elements] at hpair
  cases hd.symm.trans hpair
  refine .bind ensures_callSite ?_
  rintro decl _ ⟨rfl, hdecl⟩
  rw [program] at hdecl
  refine .bind ensures_change ?_
  rintro caller u ⟨callerEq, eq⟩
  obtain ⟨pu, hcaller⟩ := popped.internMethod (c := d) (by rw [elements]; exact hσ)
    (m := decl.container)
  rw [← eq] at pu hcaller
  rw [← callerEq] at hcaller
  refine .bind ensures_get ?_
  rintro _ _ ⟨rfl, rfl⟩
  have sameCalls : u.calls = s.calls := pu.sameCalls.trans (by rw [pop])
  have su : s.elements.Within u.elements := elements ▸ pu.elements
  have same : u.program = s.program := pu.program.trans program
  have sameSelector : u.selector = s.selector := pu.selector.trans (by rw [pop])
  have kept : s.events.toList <+: u.events.toList :=
    (show s.events.toList = p.events.toList by rw [pop]) ▸ pu.announced
  have propagated n : u.points.propagatedOf n = s.points.propagatedOf n :=
    (pu.propagated n).trans (by rw [pop])
  by_cases callerReached : s.calls.Reaches caller
  case neg =>
    rw [sameCalls, if_pos (CallGraph.not_isReached_iff.2 callerReached)]
    refine .bind ensures_siteText fun _ _ _ => .bind ensures_get fun _ _ _ => ?_
    exact .bind (P := fun _ _ => False) .throw fun _ _ => False.elim
  rw [if_neg fun stopped => CallGraph.not_isReached_iff.1 stopped (sameCalls ▸ callerReached)]
  refine .bind ensures_get ?_
  rintro _ _ ⟨rfl, rfl⟩
  refine .bind ensures_change ?_
  rintro fresh v ⟨rfl, hv'⟩
  have found : v.Pending edge.site edge.callee := by
    obtain ⟨⟨old, ho, ends⟩, eq⟩ | ⟨-, -, -, -, -, records⟩ := u.calls.add_cases caller edge
    · rw [hv', eq]
      exact .inr ⟨old, ho, ends⟩
    · rw [hv']
      exact .inr ⟨_, (records _).2 (.inr rfl), rfl⟩
  have sv : s.Grows v := grows_of_popCall pop next
    (pu.toGrows.trans (hv' ▸ grows_addCall)) found
  have call : u.Justifies (F.demands u.program) edge := by
    rw [same]
    exact ⟨via, c, site, c', m, su.via? hv, su.site? hsite, su.method? hm, granted⟩
  have sound : Sound F v := hv' ▸ sound_recordCall pu.sound call
    ⟨_, _, hcaller, (granted.2 decl hdecl).1⟩
    ⟨_, _, su.method? hm, supports.callees _ _ _ _ _ granted⟩
  obtain ⟨old, eq⟩ | ⟨fresh, flag, -, -, reaches, records⟩ := u.calls.add_cases caller edge
  · have unchanged : v.calls = s.calls := by rw [hv', eq, sameCalls]
    simp only [eq]
    refine .pure ⟨?_, sv, Solver.Still.told ?_⟩
    · exact invariant_of_call hi pop pu hv' sv (.refl sound)
        (fun cm hcm => .inl (unchanged ▸ hcm)) fun call hc => .inl (unchanged ▸ hc)
    · exact ⟨by rwa [hv'], by rwa [hv'], fun call hc => unchanged ▸ hc⟩
  · simp only [flag, if_true]
    have spec := ensures_contributeCall sound ⟨d, site⟩
      (by rw [sv.program, sv.selector]; exact supports) (sv.elements.via? hv)
      (sv.elements.sites _ _ hd) (sv.elements.situation? hσ) (sv.elements.method? hm)
      (by rw [sv.program]; exact granted) (!u.calls.isReached edge.callee)
    refine Ensures.mono spec ?_
    rintro _ t ⟨vt, new, body, link⟩
    rw [sv.program] at link
    rw [sv.program, sv.selector] at body
    have st := sv.trans vt.toGrows
    have reaches : ∀ x, v.calls.Reaches x ↔ s.calls.Reaches x ∨ x = caller ∨ x = edge.callee := by
      rw [hv', ← sameCalls]
      exact reaches
    have records : ∀ call, v.calls.Records call ↔ s.calls.Records call ∨ call = ⟨caller, edge⟩ := by
      rw [hv', ← sameCalls]
      exact records
    have sameEvents : v.events = u.events := by rw [hv']
    have passed n o (ho : o ∈ t.points.propagatedOf n) : o ∈ s.points.propagatedOf n := by
      rwa [vt.propagated, hv', propagated] at ho
    refine ⟨invariant_of_call hi pop pu hv' sv vt (fun cm hcm => ?_) fun call hc => ?_, st,
      kept.trans (sameEvents ▸ vt.announced), fun n o ho => .inl (passed n o ho),
      fun n o ho => .inl (passed n o ho), fun call hc => ?_⟩
    rotate_left 2
    · refine ((records call).1 (vt.sameCalls ▸ hc)).imp_right ?_
      rintro rfl
      exact new
    · obtain old | rfl | rfl := (reaches cm).1 hcm
      · exact .inl old
      · exact .inl callerReached
      · by_cases known : s.calls.Reaches edge.callee
        · exact .inl known
        · refine .inr fun c₁ m₁ hm₁ => ?_
          cases hm₁.symm.trans (st.elements.method? hm)
          exact body (CallGraph.not_isReached_iff.2 (sameCalls ▸ known))
    · refine ((records call).1 hc).imp_right ?_
      rintro rfl
      refine ⟨fun via₁ c₁ site₁ c₂ m₁ core hv₁ hs₁ hm₁ => ?_, (reaches _).2 (.inr (.inl rfl)),
        (reaches _).2 (.inr (.inr rfl))⟩
      cases hv₁.symm.trans (st.elements.via? hv)
      cases hs₁.symm.trans (st.elements.site? hsite)
      cases hm₁.symm.trans (st.elements.method? hm)
      exact link core

/-- The state after a node has been taken off the work list and has handed out its objects. -/
theorem grows_flush {worklist : Queue NodeId} {n : NodeId} :
    s.Grows { s with worklist, points := (s.points.flush n).2 } :=
  { Solver.Grows.refl s with
    objects := fun _ _ => PendingStore.mem_all_flush.2
    calls := fun _ => .of_queue }

theorem sound_flush (hs : Sound F s) {worklist : Queue NodeId} {n : NodeId} :
    Sound F { s with worklist, points := (s.points.flush n).2 } :=
  { hs with points := fun m o ho => hs.points m o (PendingStore.mem_all_flush.1 ho) }

/-- The next node passes on its new objects, which arrive and are seen by all that waits for
them. -/
theorem ensures_processNode {n : NodeId} {rest : Queue NodeId} (hi : Invariant F s)
    (supports : F.Supports s.program s.selector) (indexed : s.program.Indexed)
    (next : s.worklist.toList = n :: rest.toList) :
    Ensures (processNode n) { s with worklist := rest } fun _ t =>
      Invariant F t ∧ s.Grows t ∧ s.Told t := by
  refine .bind ensures_change ?_
  rintro delta u ⟨hdelta, hu⟩
  change delta = (s.points.flush n).1 at hdelta
  change u = { s with worklist := rest, points := (s.points.flush n).2 } at hu
  have su : s.Grows u := hu ▸ grows_flush
  have sound : Sound F u := hu ▸ sound_flush hi.sound
  have sameCalls : u.calls = s.calls := by rw [hu]
  have sameFlows : u.flows = s.flows := by rw [hu]
  have filed : u.flows.Filed := sameFlows ▸ hi.scheduled.filed
  have sameEvents : u.events = s.events := by rw [hu]
  have propagated : ∀ m o, o ∈ u.points.propagatedOf m ↔
      o ∈ s.points.propagatedOf m ∨ m = n ∧ o ∈ s.points.pendingOf n := fun m o => by
    rw [hu]
    exact PendingStore.mem_propagatedOf_flush
  -- what is left to show once the new objects have arrived at `t` and have been seen
  have settled {t : Solver} (ut : Adds F u t)
      (arrived : ∀ m k, s.flows.Has ⟨n, m, k⟩ → ∀ o ∈ s.points.pendingOf n, t.Carried k m o)
      (told : ∀ o ∈ s.points.pendingOf n, ∀ x, t.flows.pointer? n = some (.var x) →
        ∃ delta : Objects, o ∈ delta ∧ Event.objects x delta ∈ t.events.toList)
      (served : ∀ o ∈ s.points.pendingOf n, ∀ c v w, t.place? n = some (.var c v) →
        t.elements.value? o = some w → t.reading.Arrival s.program s.selector c v w ∧
          ∀ site, s.program.Fails v site w → t.Heralds c site w) :
      Invariant F t ∧ s.Grows t ∧ s.Told t := by
    have st := su.trans ut.toGrows
    have passed m o (ho : o ∈ t.points.propagatedOf m) :
        o ∈ s.points.propagatedOf m ∨ m = n ∧ o ∈ s.points.pendingOf n := by
      rwa [ut.propagated, propagated] at ho
    refine ⟨hi.of_grows st ut.sound (hi.conserves.flush next (hu ▸ ut.toExtends) arrived)
      (fun cm hcm => .inl ?_) (fun m o ho => ?_) (fun call hc => .inl ?_) (fun call hc => .inl ?_),
      st, sameEvents ▸ ut.announced, fun m o ho => (passed m o ho).imp_right ?_,
      fun m o ho => (passed m o ho).imp_right ?_, fun call hc => .inl ?_⟩
    · rwa [ut.sameCalls, sameCalls] at hcm
    · refine (passed m o ho).imp_right ?_
      rintro ⟨rfl, ho⟩ c v w hn hw
      exact (served o ho c v w hn hw).1
    · rwa [ut.sameCalls, sameCalls] at hc
    · rwa [ut.sameCalls, sameCalls] at hc
    · rintro ⟨rfl, ho⟩
      exact told o ho
    · rintro ⟨rfl, ho⟩ c v w hn hw
      exact (served o ho c v w hn hw).2
    · rwa [ut.sameCalls, sameCalls] at hc
  cases delta with
  | none =>
    have none := fun o => PendingStore.pendingOf_of_flush (a := o) hdelta.symm
    exact .pure (settled (.refl sound) (fun _ _ _ o ho => absurd ho (none o))
      (fun o ho => absurd ho (none o)) fun o ho => absurd ho (none o))
  | some delta =>
    have handed (o) : o ∈ delta ↔ o ∈ s.points.pendingOf n :=
      PendingStore.mem_of_flush hdelta.symm
    have known (o) (ho : o ∈ delta) : ∃ P v, u.place? n = some P ∧ u.elements.value? o = some v ∧
        (F.demands u.program).points P v :=
      sound.points n o (PendingStore.mem_all.2 (.inr ((propagated n o).2
        (.inr ⟨rfl, (handed o).1 ho⟩))))
    refine .bind ensures_get ?_
    rintro _ _ ⟨rfl, rfl⟩
    refine .bind (ensures_forM_of_extends
      (D := fun (target : NodeId × FlowKind) t => ∀ o ∈ delta, t.Carried target.2 target.1 o)
      (fun _ _ _ g h o ho => g.toGrows.carried (h o ho)) sound ?_) ?_
    · rintro ⟨m, k⟩ mem t ut
      obtain ⟨P, Q, hP, hQ, demand⟩ := sound.flows ⟨n, m, k⟩ ((filed n m k).1 mem)
      refine ensures_propagate ut.sound (ut.place? hQ) fun o ho => ?_
      obtain ⟨P', v, hP', hv, granted⟩ := known o ho
      cases hP.symm.trans hP'
      rw [ut.program]
      exact ⟨v, ut.elements.value? hv, fun pass => ⟨demand.2 v granted.1 pass, demand.1⟩⟩
    rintro _ t ⟨ut, carried⟩
    have arrived {x : Solver} (g : t.Grows x) m k (hf : s.flows.Has ⟨n, m, k⟩) o
        (ho : o ∈ s.points.pendingOf n) : x.Carried k m o := by
      rw [← sameFlows] at hf
      exact g.carried (carried (m, k) ((filed n m k).2 hf) o ((handed o).2 ho))
    refine .bind ensures_get ?_
    rintro _ _ ⟨rfl, rfl⟩
    refine .bind ensures_known ?_
    rintro p _ ⟨rfl, hp⟩
    have place {P : Place} (h : t.place? n = some P) : t.elements.place? p = some P := by
      rwa [Solver.place?, hp] at h
    split
    next x =>
      obtain ⟨P, hP⟩ := ut.sound.nodes n _ hp
      obtain ⟨⟨σ, v⟩, hx, rfl⟩ := Option.map_eq_some_iff.1 hP
      have hn : t.place? n = some (.var σ v) := by
        rw [Solver.place?, hp]
        exact hP
      refine (ensures_processVar ut.sound (by rw [ut.program, su.program]; exact indexed) hx
        fun o ho => ?_).mono ?_
      · obtain ⟨P, w, hP', hw, granted, live⟩ := known o ho
        cases hn.symm.trans (ut.place? hP')
        refine ⟨w, ut.elements.value? hw, ut.program ▸ ⟨granted, live⟩, fun decl hd => ?_⟩
        rw [ut.program, su.program] at hd ⊢
        rw [su.program] at live
        rw [ut.selector, su.selector]
        exact supports.arrivals σ v decl w hd (live decl hd) granted
      · rintro _ y ⟨ty, new, seen⟩
        refine settled (ut.trans ty) (arrived ty.toGrows) (fun o ho x' hp' => ?_)
          fun o ho c v' w hn' hw => ?_
        · cases hp'.symm.trans (ty.nodes n _ hp)
          exact ⟨delta, (handed o).2 ho, new⟩
        cases hn'.symm.trans (ty.place? hn)
        obtain ⟨P, w', -, hw', -⟩ := known o ((handed o).2 ho)
        cases hw.symm.trans ((ut.elements.trans ty.elements).value? hw')
        have := seen o ((handed o).2 ho) w (ut.elements.value? hw')
        rwa [ut.program, ut.selector, su.program, su.selector] at this
    next other =>
      refine .pure (settled ut (arrived (.refl t)) (fun o ho x hp' => ?_) fun o ho c v w hn => ?_)
      · cases hp.symm.trans hp'
        exact absurd rfl (other x)
      cases p with
      | var x => exact absurd rfl (other x)
      | field o' field =>
        obtain ⟨_, -, h⟩ := Option.map_eq_some_iff.1 (place hn)
        cases h
      | array o' =>
        obtain ⟨_, -, h⟩ := Option.map_eq_some_iff.1 (place hn)
        cases h
      | static field => cases place hn

/-- Nothing is left to do. -/
def Idle (s : Solver) : Prop := s.callQueue.toList = [] ∧ s.worklist.toList = []

/-- A step adds the next call, or passes on the objects of the next node when no call is left, or
finds that nothing is left. -/
theorem ensures_step_cases {Q : Bool → Solver → Prop}
    (call : ∀ edge rest, s.callQueue.toList = edge :: rest.toList →
      Ensures (processCallEdge edge) { s with callQueue := rest } fun _ => Q true)
    (node : ∀ n rest, s.callQueue.toList = [] → s.worklist.toList = n :: rest.toList →
      Ensures (processNode n) { s with worklist := rest } fun _ => Q true)
    (idle : Idle s → Q false s) : Ensures step s Q := by
  refine .bind ensures_get ?_
  rintro _ _ ⟨rfl, rfl⟩
  split
  next edge rest hpop =>
    refine .bind ensures_set ?_
    rintro _ _ rfl
    exact .bind (call edge rest (Queue.toList_of_pop? hpop)) fun _ _ => .pure
  next noCall =>
    rw [Queue.pop?_eq_none_iff] at noCall
    split
    next n rest hpop =>
      refine .bind ensures_set ?_
      rintro _ _ rfl
      exact .bind (node n rest noCall (Queue.toList_of_pop? hpop)) fun _ _ => .pure
    next noNode => exact .pure (idle ⟨noCall, Queue.pop?_eq_none_iff.1 noNode⟩)

/-- Every piece of work keeps the invariant, and when there is none, nothing is left to do. -/
theorem ensures_step (hi : Invariant F s) (supports : F.Supports s.program s.selector)
    (indexed : s.program.Indexed) :
    Ensures step s fun more t =>
      Invariant F t ∧ s.Grows t ∧ s.Told t ∧ (more = false → t = s ∧ Idle s) := by
  refine ensures_step_cases (fun edge rest next => ?_) (fun n rest _ next => ?_) fun idle => ?_
  · refine (ensures_processCallEdge hi supports next rfl).mono ?_
    exact fun _ t ⟨hi, st, told⟩ => ⟨hi, st, told, fun h => by cases h⟩
  · refine (ensures_processNode hi supports indexed next).mono ?_
    exact fun _ t ⟨hi, st, told⟩ => ⟨hi, st, told, fun h => by cases h⟩
  · exact ⟨hi, .refl s, (Solver.Extends.refl s).still.told, fun _ => ⟨rfl, idle⟩⟩

end Solve
end PointsTo
