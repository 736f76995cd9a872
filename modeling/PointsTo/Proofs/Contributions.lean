import PointsTo.Proofs.Conservation

/-!
What methods, objects and calls contribute. Each function of the solver adds facts that its
constraint demands, and leaves a state that grants its constraint.
-/
namespace PointsTo

open Facts

/-- The use index lists the statements that wait for each variable. -/
structure Program.Indexed (p : Program) : Prop where
  vars : ∀ (v : VarId) u, p.uses[v]? = some u → ∃ decl, p.vars[v]? = some decl
  loads : ∀ (v : VarId) u, p.uses[v]? = some u → ∀ field lhs,
    (field, lhs) ∈ u.loads ↔ p.Contains (.loadField lhs v field)
  stores : ∀ (v : VarId) u, p.uses[v]? = some u → ∀ field rhs,
    (field, rhs) ∈ u.stores ↔ p.Contains (.storeField v field rhs)
  arrayLoads : ∀ (v : VarId) u, p.uses[v]? = some u → ∀ lhs,
    lhs ∈ u.arrayLoads ↔ p.Contains (.loadArray lhs v)
  arrayStores : ∀ (v : VarId) u, p.uses[v]? = some u → ∀ rhs,
    rhs ∈ u.arrayStores ↔ p.Contains (.storeArray v rhs)
  invokes : ∀ (v : VarId) u, p.uses[v]? = some u → ∀ site,
    site ∈ u.invokes ↔ p.Contains (.invoke site) ∧ p.base? (.invoke site) = some v

namespace Solve

variable {F : Solution} {s : Solver}

/-! ### Reached methods -/

section Reached

variable {c : ContextId} {σ : Situation} (hs : Sound F s)
  (hc : s.elements.situation? c = some σ) {site : CallSiteId} {decl : CallSite}
include hs hc

theorem ensures_processNamedCall {kind : CallEdgeKind} {via : Via}
    (hd : s.program.callSites[site]? = some decl) (hvia : decl.kind.via? = some via)
    (hk : ∀ e : Elements, e.via? kind = some via)
    (demand : (F.demands s.program).NamedCall s.program s.selector σ site decl via) :
    Ensures (processNamedCall c site decl.target kind) s fun _ t =>
      Adds F s t ∧ t.reading.NamedCall s.program s.selector σ site decl via := by
  unfold processNamedCall
  refine .bind ensures_get ?_
  rintro _ _ ⟨rfl, rfl⟩
  split
  next callee hr =>
    refine .bind ensures_change ?_
    rintro cs _ ⟨rfl, rfl⟩
    obtain ⟨adds, hcs⟩ := hs.internSite hc site
    refine .bind (ensures_calleeContext adds.sound hcs) ?_
    rintro cc t ⟨adds', hcc⟩
    refine .bind ensures_change ?_
    rintro cm _ ⟨rfl, rfl⟩
    obtain ⟨adds'', hcm⟩ := adds'.sound.internMethod hcc (m := callee)
    have all := (adds.trans adds').trans adds''
    have hcs' := (adds'.toExtends.trans adds''.toExtends).elements.site? hcs
    obtain ⟨queued, granted⟩ := adds''.sound.queueCall ⟨_, _, kind⟩ (hk _) hcs' hcm
      (by rw [all.program]; exact demand callee hr)
    refine ensures_modify.mono ?_
    rintro _ _ rfl
    refine ⟨all.trans queued, fun callee' hr' => ⟨⟨decl, ?_, hvia⟩, ?_⟩⟩
    · rw [(all.trans queued).program]
      exact hd
    · cases hr.symm.trans hr'
      exact granted
  next hr =>
    refine .bind ensures_siteText ?_
    rintro _ _ rfl
    refine ensures_modify.mono ?_
    rintro _ _ rfl
    refine ⟨hs.warn, fun callee hr' => ?_⟩
    cases hr.symm.trans hr'

theorem ensures_processDynamicCall {call : DynamicCall}
    (hd : s.program.callSites[site]? = some decl) (hk : decl.kind = .dynamic call)
    (demand : (F.demands s.program).Site s.program s.selector σ site decl) :
    Ensures (processDynamicCall c site decl call) s fun _ t =>
      Adds F s t ∧ t.reading.Site s.program s.selector σ site decl := by
  unfold Reading.Site at demand ⊢
  simp only [hk] at demand ⊢
  unfold processDynamicCall
  split
  next concat =>
    split
    next result type heq =>
      obtain ⟨hr, ht⟩ := Prod.mk.inj heq
      refine .bind ensures_change ?_
      rintro o _ ⟨rfl, rfl⟩
      obtain ⟨adds, ha⟩ := hs.mock (.inl rfl) hd (Program.houses_concatenation hd ⟨⟨call, hk⟩, ht⟩)
      obtain ⟨adds', granted⟩ := adds.sound.addObjectIn (c := c) (v := result)
        (adds.elements.situation? hc) Elements.situation?_emptyId ha
        (by rw [adds.program]; exact demand concat result type hr ht)
      refine ensures_modify.mono ?_
      rintro _ _ rfl
      refine ⟨adds.trans adds', fun _ result' type' hr' ht' => ?_⟩
      cases hr.symm.trans hr'
      cases ht.symm.trans ht'
      exact granted
    next none =>
      refine .pure ⟨.refl hs, fun _ result type hr ht => ?_⟩
      exact absurd (Prod.ext hr ht) (none result type)
  next other =>
    refine ensures_modify.mono ?_
    rintro _ _ rfl
    exact ⟨hs.announce ⟨⟨σ, hc⟩, fun o ho => by cases ho⟩, fun concat => absurd concat other⟩

theorem ensures_processCall
    (demand : ∀ decl, s.program.callSites[site]? = some decl →
      (F.demands s.program).Site s.program s.selector σ site decl) :
    Ensures (processCall c site) s fun _ t => Adds F s t ∧
      ∀ decl, s.program.callSites[site]? = some decl →
        t.reading.Site s.program s.selector σ site decl := by
  refine .bind ensures_callSite ?_
  rintro decl _ ⟨rfl, hd⟩
  have only {t : Solver} (h : t.reading.Site s.program s.selector σ site decl) decl'
      (hd' : s.program.callSites[site]? = some decl') :
      t.reading.Site s.program s.selector σ site decl' := by
    cases hd.symm.trans hd'
    exact h
  have demand := demand decl hd
  split
  next hk =>
    unfold Reading.Site at demand only
    simp only [hk] at demand only
    refine (ensures_processNamedCall hs hc hd (by rw [hk]; rfl) (fun _ => rfl) demand).mono ?_
    exact fun _ _ h => h.imp_right only
  next hk =>
    unfold Reading.Site at demand only
    simp only [hk] at demand only
    refine (ensures_processNamedCall hs hc hd (by rw [hk]; rfl) (fun _ => rfl) demand).mono ?_
    exact fun _ _ h => h.imp_right only
  next hk => exact .pure ⟨.refl hs, only (by unfold Reading.Site; rw [hk]; trivial)⟩
  next hk => exact .pure ⟨.refl hs, only (by unfold Reading.Site; rw [hk]; trivial)⟩
  next call hk =>
    refine (ensures_processDynamicCall hs hc hd hk demand).mono ?_
    exact fun _ _ h => h.imp_right only

end Reached

/-- A statement contributes what it demands once its method is reached. -/
theorem ensures_processStatement (hs : Sound F s) {cm : ContextMethodId} {m : MethodId}
    {c : ContextId} {σ : Situation} (hm : s.elements.methods.get? cm = some ⟨c, m⟩)
    (hc : s.elements.situation? c = some σ) {d : MethodDecl} (hd : s.program.methods[m]? = some d)
    {i : Nat} {stmt : Statement} (hi : d.body[i]? = some stmt)
    (demand : (F.demands s.program).Reached s.program s.selector σ m i stmt) :
    Ensures (processStatement cm ⟨c, m⟩ i stmt) s fun _ t =>
      Adds F s t ∧ t.reading.Reached s.program s.selector σ m i stmt := by
  cases stmt with
  | new lhs type =>
    refine .bind ensures_change ?_
    rintro o _ ⟨rfl, rfl⟩
    obtain ⟨adds, ha⟩ := hs.allocate hd hi
    have hcm := Elements.copy?_eq_some_iff.2 ⟨c, hm, hc⟩
    refine .bind (ensures_heapContext adds.sound (adds.elements.method? hcm)) ?_
    rintro hctx t ⟨adds', hh⟩
    refine ensures_modify.mono ?_
    rintro _ _ rfl
    obtain ⟨adds'', granted⟩ := adds'.sound.addObjectIn (c := c) (v := lhs)
      (adds'.elements.situation? (adds.elements.situation? hc)) hh (adds'.elements.heap _ _ ha)
      (by rw [adds'.program]; exact demand)
    exact ⟨(adds.trans adds').trans adds'', granted⟩
  | assign lhs rhs => exact ensures_addVarFlow hs hc hc demand
  | cast lhs rhs type => exact ensures_addVarFlow hs hc hc demand
  | loadStatic lhs field =>
    refine .bind ensures_change ?_
    rintro x _ ⟨rfl, rfl⟩
    obtain ⟨adds, hx⟩ := hs.internVar hc (v := lhs)
    refine (ensures_addFlow adds.sound (p := .static field) rfl (Elements.place?_var hx)
      demand).mono ?_
    exact fun _ t ⟨adds', granted⟩ => ⟨adds.trans adds', granted⟩
  | storeStatic field rhs =>
    refine .bind ensures_change ?_
    rintro x _ ⟨rfl, rfl⟩
    obtain ⟨adds, hx⟩ := hs.internVar hc (v := rhs)
    refine (ensures_addFlow adds.sound (q := .static field) (Elements.place?_var hx) rfl
      demand).mono ?_
    exact fun _ t ⟨adds', granted⟩ => ⟨adds.trans adds', granted⟩
  | invoke site => exact ensures_processCall hs hc demand
  | loadField => exact .pure ⟨.refl hs, trivial⟩
  | storeField => exact .pure ⟨.refl hs, trivial⟩
  | loadArray => exact .pure ⟨.refl hs, trivial⟩
  | storeArray => exact .pure ⟨.refl hs, trivial⟩
  | ret => exact .pure ⟨.refl hs, trivial⟩

theorem ensures_processMethod (hs : Sound F s) {cm : ContextMethodId} {σ : Situation}
    {m : MethodId} (hm : s.elements.copy? s.elements.methods cm = some (σ, m))
    (demand : (F.demands s.program).Body s.program s.selector σ m) :
    Ensures (processMethod cm) s fun _ t =>
      Adds F s t ∧ t.reading.Body s.program s.selector σ m := by
  obtain ⟨c, hcm, hc⟩ := Elements.copy?_eq_some_iff.1 hm
  refine .bind ensures_methodAt ?_
  rintro pair _ ⟨rfl, hpair⟩
  cases hcm.symm.trans hpair
  refine .bind ensures_methodDecl ?_
  rintro d _ ⟨rfl, hd⟩
  have body (stmt : Statement) (i : Nat) :
      (stmt, i) ∈ d.body.toList.zipIdx ↔ d.body[i]? = some stmt := by
    rw [List.mk_mem_zipIdx_iff_getElem?, Array.getElem?_toList]
  refine (ensures_forM (D := fun pair R => R.Reached s.program s.selector σ m pair.2 pair.1)
    (fun _ _ _ le => le.reached_mono) hs ?_).mono ?_
  · rintro ⟨stmt, i⟩ mem t st
    have hi := (body stmt i).1 mem
    have spec := ensures_processStatement st.sound (st.elements.methods _ _ hcm)
      (st.elements.situation? hc) (by rw [st.program]; exact hd) hi
      (by rw [st.program, st.selector]; exact demand d hd i stmt hi)
    rwa [st.program, st.selector] at spec
  · rintro _ t ⟨adds, granted⟩
    refine ⟨adds, fun d' hd' i stmt hi => ?_⟩
    cases hd.symm.trans hd'
    exact granted (stmt, i) ((body stmt i).2 hi)

/-- A method that has just been reached contributes what it demands. -/
theorem ensures_enter (hs : Sound F s) {cm : ContextMethodId} {σ : Situation} {m : MethodId}
    (hm : s.elements.copy? s.elements.methods cm = some (σ, m)) (reached : F.reached σ m)
    (demand : (F.demands s.program).Body s.program s.selector σ m) :
    Ensures (enter cm) s fun _ t => Adds F s t ∧ t.reading.Body s.program s.selector σ m := by
  refine .bind ensures_methodAt ?_
  rintro pair _ ⟨rfl, hpair⟩
  refine .bind ensures_get ?_
  rintro _ _ ⟨rfl, rfl⟩
  have rest {t : Solver} (st : Adds F s t) : Ensures (do
      modify (·.announce (.contextMethod cm))
      processMethod cm) t fun _ u => Adds F s u ∧ u.reading.Body s.program s.selector σ m := by
    refine .bind ensures_modify ?_
    rintro _ _ rfl
    have tu := st.sound.announce (e := .contextMethod cm) ⟨σ, m, st.elements.method? hm, reached⟩
    have su := st.trans tu
    have spec := ensures_processMethod su.sound (su.elements.method? hm)
      (by rw [su.program, su.selector]; exact demand)
    rw [su.program, su.selector] at spec
    exact spec.mono fun _ u ⟨adds, granted⟩ => ⟨su.trans adds, granted⟩
  split
  · refine .bind ensures_modify ?_
    rintro _ _ rfl
    refine .bind ensures_modify ?_
    rintro _ _ rfl
    have st : Adds F s _ := hs.meet (s.reachedMethods.insert pair.entity)
    exact rest (st.trans (st.sound.announce trivial))
  · exact rest (.refl hs)

/-! ### Recorded calls -/

theorem ensures_linkCall (hs : Sound F s) (site : InContext .callSite) (callee : InContext .method)
    {σ τ : Situation} (hσ : s.elements.situation? site.context = some σ)
    (hτ : s.elements.situation? callee.context = some τ) {kind : CallEdgeKind} {via : Via}
    (special : kind = .special ↔ via = .special)
    (demand : (F.demands s.program).Link s.program via σ site.entity τ callee.entity) :
    Ensures (linkCall site callee kind) s fun _ t =>
      Adds F s t ∧ t.reading.Link s.program via σ site.entity τ callee.entity := by
  refine .bind ensures_callSite ?_
  rintro decl _ ⟨rfl, hdecl⟩
  refine .bind ensures_methodDecl ?_
  rintro d _ ⟨rfl, hd⟩
  obtain ⟨args, returns, base⟩ := demand decl d hdecl hd
  refine .bind (ensures_forM
    (D := fun pair R => R.carries (.var σ pair.1) (.var τ pair.2) .parameter)
    (fun _ _ _ le => le.carries _ _ _) hs ?_) ?_
  · rintro ⟨arg, param⟩ mem t st
    exact ensures_addVarFlow st.sound (st.elements.situation? hσ) (st.elements.situation? hτ)
      (by rw [st.program]; exact args _ mem)
  rintro _ t ⟨st, passed⟩
  have link {w : Solver} (tw : t.Grows w)
      (returned : ∀ result, decl.result = some result → ∀ value ∈ d.returns,
        w.reading.carries (.var τ value) (.var σ result) .ret)
      (bound : via = .special → ∀ b this, decl.base = some b → d.receiver = some this →
        w.reading.carries (.var σ b) (.var τ this) .parameter) :
      w.reading.Link s.program via σ site.entity τ callee.entity := by
    intro decl' d' hdecl' hd'
    cases hdecl.symm.trans hdecl'
    cases hd.symm.trans hd'
    exact ⟨fun pair mem => tw.reading.carries _ _ _ (passed pair mem), returned, bound⟩
  -- the receiver of a special call is bound last, whether or not there is a result
  cases hr : decl.result
  case' none =>
    have su := st
    have tu : t.Grows t := .refl t
    have returned (result : VarId) (hr' : decl.result = some result) : ∀ value ∈ d.returns,
        t.reading.carries (.var τ value) (.var σ result) .ret := by cases hr.symm.trans hr'
  case' some result =>
    refine .bind (ensures_forM
      (D := fun value R => R.carries (.var τ value) (.var σ result) .ret)
      (fun _ _ _ le => le.carries _ _ _) st.sound fun value mem u tu => ?_) ?_
    · have su := st.trans tu
      exact ensures_addVarFlow su.sound (su.elements.situation? hτ) (su.elements.situation? hσ)
        (by rw [su.program]; exact returns result hr value mem)
    rintro _ u ⟨adds, granted⟩
    have su := st.trans adds
    have tu := adds.toGrows
    have returned (result' : VarId) (hr' : decl.result = some result') : ∀ value ∈ d.returns,
        u.reading.carries (.var τ value) (.var σ result') .ret := by
      cases hr.symm.trans hr'
      exact granted
  all_goals
    dsimp only
    split
    next isSpecial =>
      split
      next b this heq =>
        obtain ⟨hb, ht⟩ := Prod.mk.inj heq
        refine (ensures_addVarFlow su.sound (su.elements.situation? hσ)
          (su.elements.situation? hτ)
          (by rw [su.program]; exact base (special.1 isSpecial) b this hb ht)).mono ?_
        rintro _ w ⟨uw, granted⟩
        refine ⟨su.trans uw, link (tu.trans uw.toGrows) (fun result hr' value mem =>
          uw.reading.carries _ _ _ (returned result hr' value mem)) fun _ b' this' hb' ht' => ?_⟩
        cases hb.symm.trans hb'
        cases ht.symm.trans ht'
        exact granted
      next none =>
        exact .pure ⟨su, link tu returned fun _ b this hb ht => absurd (Prod.ext hb ht) (none b this)⟩
    next notSpecial =>
      exact .pure ⟨su, link tu returned fun h => absurd (special.2 h) notSpecial⟩

/-! ### Objects that arrive -/

end Solve

namespace Reading

variable (R : Reading) (c : Situation)

/-- What the accesses to fields and arrays that wait for a variable demand of an object. -/
structure Accesses (uses : VarUses) (w : Value) : Prop where
  loads : ∀ field lhs, (field, lhs) ∈ uses.loads →
    R.carries (.field w field) (.var c lhs) .fieldLoad
  stores : ∀ field rhs, (field, rhs) ∈ uses.stores →
    R.carries (.var c rhs) (.field w field) .fieldStore
  arrayLoads : ∀ lhs ∈ uses.arrayLoads, R.carries (.array w) (.var c lhs) .arrayLoad
  arrayStores : ∀ rhs ∈ uses.arrayStores, R.carries (.var c rhs) (.array w) .arrayStore

variable {R} {c} {S : Reading} {uses : VarUses} {w : Value}

theorem Le.accesses_mono (h : R.Le S) (ha : R.Accesses c uses w) : S.Accesses c uses w where
  loads field lhs mem := h.carries _ _ _ (ha.loads field lhs mem)
  stores field rhs mem := h.carries _ _ _ (ha.stores field rhs mem)
  arrayLoads lhs mem := h.carries _ _ _ (ha.arrayLoads lhs mem)
  arrayStores rhs mem := h.carries _ _ _ (ha.arrayStores rhs mem)

/-- A variable without accesses demands nothing of its objects on their account. -/
theorem accesses_of_not_hasAccesses (none : uses.hasAccesses = false) : R.Accesses c uses w := by
  simp only [VarUses.hasAccesses, Bool.not_eq_false', Bool.and_eq_true, List.isEmpty_iff] at none
  obtain ⟨⟨⟨loads, stores⟩, arrayLoads⟩, arrayStores⟩ := none
  constructor <;> simp [loads, stores, arrayLoads, arrayStores]

/-- The use index holds all that waits for a variable. -/
theorem arrival_iff {p : Program} {sel : Selector} (indexed : p.Indexed) {v : VarId}
    (hu : p.uses[v]? = some uses) :
    R.Arrival p sel c v w ↔ R.Accesses c uses w ∧ ∀ site ∈ uses.invokes, ∀ decl,
      p.callSites[site]? = some decl → R.Receiver p sel c site decl w := by
  constructor
  · intro h
    refine ⟨⟨fun field lhs mem => ?_, fun field rhs mem => ?_, fun lhs mem => ?_,
      fun rhs mem => ?_⟩, fun site mem decl hd => ?_⟩
    · exact h _ ((indexed.loads v uses hu field lhs).1 mem) rfl
    · exact h _ ((indexed.stores v uses hu field rhs).1 mem) rfl
    · exact h _ ((indexed.arrayLoads v uses hu lhs).1 mem) rfl
    · exact h _ ((indexed.arrayStores v uses hu rhs).1 mem) rfl
    · obtain ⟨contains, base⟩ := (indexed.invokes v uses hu site).1 mem
      exact h _ contains base decl hd
  · rintro ⟨accesses, receivers⟩ stmt contains base
    cases stmt with
    | loadField lhs b field =>
      cases base
      exact accesses.loads _ _ ((indexed.loads v uses hu field lhs).2 contains)
    | storeField b field rhs =>
      cases base
      exact accesses.stores _ _ ((indexed.stores v uses hu field rhs).2 contains)
    | loadArray lhs b =>
      cases base
      exact accesses.arrayLoads _ ((indexed.arrayLoads v uses hu lhs).2 contains)
    | storeArray b rhs =>
      cases base
      exact accesses.arrayStores _ ((indexed.arrayStores v uses hu rhs).2 contains)
    | invoke site => exact receivers site ((indexed.invokes v uses hu site).2 ⟨contains, base⟩)
    | _ => cases base

end Reading

namespace Solve

variable {F : Solution} {s : Solver}

section Arrivals

variable {c : ContextId} {σ : Situation} {o : ContextObjectId} {w : Value}

theorem ensures_processAccesses (hs : Sound F s) (hc : s.elements.situation? c = some σ)
    (ho : s.elements.value? o = some w) {uses : VarUses}
    (demand : (F.demands s.program).Accesses σ uses w) :
    Ensures (processAccesses c uses o) s fun _ t => Adds F s t ∧ t.reading.Accesses σ uses w := by
  have var {t : Solver} (st : Adds F s t) (v : VarId) :
      Ensures (do return Pointer.var (← change (·.internVar c v)) : Solve Pointer) t fun p u =>
        Adds F t u ∧ u.elements.place? p = some (.var σ v) := by
    refine .bind ensures_change ?_
    rintro x _ ⟨rfl, rfl⟩
    obtain ⟨tu, hx⟩ := st.sound.internVar (st.elements.situation? hc) (v := v)
    exact .pure ⟨tu, Elements.place?_var hx⟩
  have into {t : Solver} (st : Adds F s t) {q : Pointer} {Q : Place} (v : VarId) {k : FlowKind}
      (hq : s.elements.place? q = some Q) (demand : (F.demands s.program).carries Q (.var σ v) k) :
      Ensures (do addFlow q (← (do return Pointer.var (← change (·.internVar c v)))) k) t
        fun _ u => Adds F t u ∧ u.reading.carries Q (.var σ v) k := by
    refine .bind (var st v) fun p u ⟨tu, hp⟩ => ?_
    refine (ensures_addFlow tu.sound ((st.elements.trans tu.elements).place? hq) hp
      (by rw [tu.program, st.program]; exact demand)).mono ?_
    exact fun _ u ⟨adds, granted⟩ => ⟨tu.trans adds, granted⟩
  have outOf {t : Solver} (st : Adds F s t) {q : Pointer} {Q : Place} (v : VarId) {k : FlowKind}
      (hq : s.elements.place? q = some Q) (demand : (F.demands s.program).carries (.var σ v) Q k) :
      Ensures (do addFlow (← (do return Pointer.var (← change (·.internVar c v)))) q k) t
        fun _ u => Adds F t u ∧ u.reading.carries (.var σ v) Q k := by
    refine .bind (var st v) fun p u ⟨tu, hp⟩ => ?_
    refine (ensures_addFlow tu.sound hp ((st.elements.trans tu.elements).place? hq)
      (by rw [tu.program, st.program]; exact demand)).mono ?_
    exact fun _ u ⟨adds, granted⟩ => ⟨tu.trans adds, granted⟩
  refine .bind (ensures_forM
    (D := fun pair R => R.carries (.field w pair.1) (.var σ pair.2) .fieldLoad)
    (fun _ _ _ le => le.carries _ _ _) hs fun ⟨field, lhs⟩ mem t st =>
      into st lhs (Elements.place?_field ho field) (demand.loads _ _ mem)) ?_
  rintro _ t ⟨st, loaded⟩
  refine .bind (ensures_forM
    (D := fun pair R => R.carries (.var σ pair.2) (.field w pair.1) .fieldStore)
    (fun _ _ _ le => le.carries _ _ _) st.sound fun ⟨field, rhs⟩ mem u tu =>
      outOf (st.trans tu) rhs (Elements.place?_field ho field) (demand.stores _ _ mem)) ?_
  rintro _ u ⟨tu, stored⟩
  refine .bind (ensures_forM
    (D := fun lhs R => R.carries (.array w) (.var σ lhs) .arrayLoad)
    (fun _ _ _ le => le.carries _ _ _) tu.sound fun lhs mem x ux =>
      into ((st.trans tu).trans ux) lhs (Elements.place?_array ho) (demand.arrayLoads lhs mem)) ?_
  rintro _ x ⟨ux, arrayLoaded⟩
  refine (ensures_forM
    (D := fun rhs R => R.carries (.var σ rhs) (.array w) .arrayStore)
    (fun _ _ _ le => le.carries _ _ _) ux.sound fun rhs mem y xy =>
      outOf (((st.trans tu).trans ux).trans xy) rhs (Elements.place?_array ho)
        (demand.arrayStores rhs mem)).mono ?_
  rintro _ y ⟨xy, arrayStored⟩
  exact ⟨((st.trans tu).trans ux).trans xy,
    fun field lhs mem => ((tu.trans ux).trans xy).reading.carries _ _ _ (loaded _ mem),
    fun field rhs mem => (ux.trans xy).reading.carries _ _ _ (stored _ mem),
    fun lhs mem => xy.reading.carries _ _ _ (arrayLoaded lhs mem), arrayStored⟩

theorem ensures_bindReceiver (hs : Sound F s) (hc : s.elements.situation? c = some σ)
    (ho : s.elements.value? o = some w) (callee : MethodId)
    (demand : ∀ d this, s.program.methods[callee]? = some d → d.receiver = some this →
      (F.demands s.program).points (.var σ this) w) :
    Ensures (bindReceiver c callee o) s fun _ t => Adds F s t ∧
      ∀ d this, s.program.methods[callee]? = some d → d.receiver = some this →
        t.reading.points (.var σ this) w := by
  refine .bind ensures_methodDecl ?_
  rintro d _ ⟨rfl, hd⟩
  split
  next this ht =>
    refine .bind ensures_change ?_
    rintro x _ ⟨rfl, rfl⟩
    obtain ⟨adds, hx⟩ := hs.internVar hc (v := this)
    refine ensures_modify.mono ?_
    rintro _ _ rfl
    obtain ⟨adds', granted⟩ := adds.sound.addVarObject hx (adds.elements.value? ho)
      (by rw [adds.program]; exact demand d this hd ht)
    refine ⟨adds.trans adds', fun d' this' hd' ht' => ?_⟩
    cases hd.symm.trans hd'
    cases ht.symm.trans ht'
    exact granted
  next none =>
    refine .pure ⟨.refl hs, fun d' this hd' ht => ?_⟩
    cases hd.symm.trans hd'
    exact absurd ht (none this)

theorem ensures_processReceiver (hs : Sound F s) (hc : s.elements.situation? c = some σ)
    (ho : s.elements.value? o = some w) {site : CallSiteId} {decl : CallSite}
    (hd : s.program.callSites[site]? = some decl) (dispatched : decl.kind.isDispatched = true)
    (demand : (F.demands s.program).Receiver s.program s.selector σ site decl w) :
    Ensures (processReceiver c site decl o) s fun _ t => Adds F s t ∧
      t.reading.Receiver s.program s.selector σ site decl w ∧
      (s.program.dispatch w.object.type decl.target.sub = none → t.Heralds σ site w) := by
  refine .bind (ensures_dispatch? ho) ?_
  rintro r _ ⟨rfl, rfl⟩
  split
  next none =>
    refine ensures_modify.mono ?_
    rintro _ _ rfl
    have attests : s.Attests F (.unresolved (some o) c site) :=
      ⟨⟨σ, hc⟩, by rintro _ ⟨⟩; exact ⟨w, ho⟩⟩
    refine ⟨hs.announce attests, fun callee hr => ?_, fun _ => ?_⟩
    · cases none.symm.trans hr
    · exact ⟨c, o, hc, ho, Queue.mem_push.2 (.inr rfl)⟩
  next callee hr =>
    obtain ⟨call, receive⟩ := demand callee hr
    refine .bind ensures_change ?_
    rintro cs _ ⟨rfl, rfl⟩
    obtain ⟨adds, hcs⟩ := hs.internSite hc site
    refine .bind (ensures_dispatchContext adds.sound hcs (adds.elements.value? ho)) ?_
    rintro cc t ⟨adds', hcc⟩
    have st := adds.trans adds'
    refine .bind (ensures_bindReceiver st.sound hcc (st.elements.value? ho) callee
      (by rw [st.program]; exact receive)) ?_
    rintro _ u ⟨tu, bound⟩
    have su := st.trans tu
    refine .bind ensures_change ?_
    rintro cm _ ⟨rfl, rfl⟩
    obtain ⟨adds'', hcm⟩ := tu.sound.internMethod (tu.elements.situation? hcc) (m := callee)
    have all := su.trans adds''
    obtain ⟨via, hv, kind⟩ : ∃ via, decl.kind.via? = some via ∧
        ∀ e : Elements, e.via? (if decl.kind = .interface then .interface else .virtual) =
          some via := by
      cases hk : decl.kind with
      | virtual => exact ⟨.virtual, rfl, fun _ => rfl⟩
      | interface => exact ⟨.interface, rfl, fun _ => rfl⟩
      | _ => simp [hk, CallKind.isDispatched] at dispatched
    have hcs' := ((adds'.toExtends.trans tu.toExtends).trans adds''.toExtends).elements.site? hcs
    obtain ⟨queued, granted⟩ := adds''.sound.queueCall ⟨_, _, _⟩ (kind _) hcs' hcm
      (by rw [all.program]; exact call via hv)
    refine ensures_modify.mono ?_
    rintro _ _ rfl
    refine ⟨all.trans queued, fun callee' hr' => ?_, fun none => by cases hr.symm.trans none⟩
    cases hr.symm.trans hr'
    refine ⟨fun via' hv' => ?_, fun d this hd ht => ?_⟩
    · cases hv.symm.trans hv'
      have program := (all.trans queued).program
      exact ⟨⟨decl, (congrArg (·.callSites[site]?) program).trans hd, hv⟩, granted⟩
    · exact (adds''.trans queued).reading.points _ _
        (bound d this (by rw [st.program]; exact hd) ht)

/-- A dispatched call contributes for every new receiver. -/
theorem ensures_processReceivers (hs : Sound F s) (hc : s.elements.situation? c = some σ)
    (site : CallSiteId) (delta : Objects)
    (dispatched : ∀ decl, s.program.callSites[site]? = some decl → decl.kind.isDispatched = true)
    (demand : ∀ o ∈ delta, ∃ w, s.elements.value? o = some w ∧
      ∀ decl, s.program.callSites[site]? = some decl →
        (F.demands s.program).Receiver s.program s.selector σ site decl w) :
    Ensures (do
      let decl ← callSite site
      delta.toList.forM (processReceiver c site decl)) s fun _ t => Adds F s t ∧
        ∀ decl, s.program.callSites[site]? = some decl →
          ∀ o ∈ delta, ∀ w, s.elements.value? o = some w →
            t.reading.Receiver s.program s.selector σ site decl w ∧
            (s.program.dispatch w.object.type decl.target.sub = none → t.Heralds σ site w) := by
  refine .bind ensures_callSite ?_
  rintro decl _ ⟨rfl, hd⟩
  refine (ensures_forM_of_extends (D := fun o t => ∀ w, s.elements.value? o = some w →
      t.reading.Receiver s.program s.selector σ site decl w ∧
      (s.program.dispatch w.object.type decl.target.sub = none → t.Heralds σ site w))
    (fun o t u tu h w hw => (h w hw).imp tu.reading.receiver_mono fun h none =>
      tu.heralds (h none)) hs ?_).mono ?_
  · intro o ho t st
    obtain ⟨w, hw, receiver⟩ := demand o (HybridSet.mem_toList.1 ho)
    have spec := ensures_processReceiver st.sound (st.elements.situation? hc)
      (st.elements.value? hw) (by rw [st.program]; exact hd) (dispatched decl hd)
      (by rw [st.program, st.selector]; exact receiver decl hd)
    rw [st.program, st.selector] at spec
    refine spec.mono fun _ u ⟨adds, granted⟩ => ⟨adds, fun w' hw' => ?_⟩
    cases hw.symm.trans hw'
    exact granted
  · refine fun _ t ⟨adds, granted⟩ => ⟨adds, fun decl' hd' o ho => ?_⟩
    cases hd.symm.trans hd'
    exact granted o (HybridSet.mem_toList.2 ho)

/-- The objects that arrive at a variable contribute what the statements that wait for it demand of
them, and are announced, as are the calls that have no target on them. -/
theorem ensures_processVar (hs : Sound F s) (indexed : s.program.Indexed) {x : ContextVarId}
    {v : VarId} (hx : s.elements.copy? s.elements.vars x = some (σ, v)) {delta : Objects}
    (demand : ∀ o ∈ delta, ∃ w, s.elements.value? o = some w ∧
      (F.demands s.program).points (.var σ v) w ∧ ∀ decl, s.program.vars[v]? = some decl →
        (F.demands s.program).Arrival s.program s.selector σ v w) :
    Ensures (processVar x delta) s fun _ t => Adds F s t ∧
      Event.objects x delta ∈ t.events.toList ∧
      ∀ o ∈ delta, ∀ w, s.elements.value? o = some w →
        t.reading.Arrival s.program s.selector σ v w ∧
        ∀ site, s.program.Fails v site w → t.Heralds σ site w := by
  obtain ⟨c, hxc, hc⟩ := Elements.copy?_eq_some_iff.1 hx
  refine .bind ensures_varAt ?_
  rintro pair _ ⟨rfl, hpair⟩
  cases hxc.symm.trans hpair
  refine .bind ensures_get ?_
  rintro _ _ ⟨rfl, rfl⟩
  refine .bind ensures_known ?_
  rintro uses _ ⟨rfl, huses⟩
  obtain ⟨varDecl, hv⟩ := indexed.vars v uses huses
  have arrival (o) (ho : o ∈ delta) : ∃ w, s.elements.value? o = some w ∧
      (F.demands s.program).Accesses σ uses w ∧ ∀ site ∈ uses.invokes, ∀ decl,
        s.program.callSites[site]? = some decl →
          (F.demands s.program).Receiver s.program s.selector σ site decl w := by
    obtain ⟨w, hw, -, h⟩ := demand o ho
    exact ⟨w, hw, (Reading.arrival_iff indexed huses).1 (h varDecl hv)⟩
  -- after the accesses, the calls
  have rest {t : Solver} (st : Adds F s t) (accessed : ∀ o ∈ delta, ∀ w,
      s.elements.value? o = some w → t.reading.Accesses σ uses w) :
      Ensures (do
        uses.invokes.forM fun site => do
          let decl ← callSite site
          delta.toList.forM (processReceiver c site decl)
        modify (·.announce (.objects x delta))) t fun _ u => Adds F s u ∧
          Event.objects x delta ∈ u.events.toList ∧
          ∀ o ∈ delta, ∀ w, s.elements.value? o = some w →
            u.reading.Arrival s.program s.selector σ v w ∧
            ∀ site, s.program.Fails v site w → u.Heralds σ site w := by
    refine .bind (ensures_forM_of_extends
      (D := fun site u => ∀ decl, s.program.callSites[site]? = some decl → ∀ o ∈ delta,
        ∀ w, s.elements.value? o = some w →
          u.reading.Receiver s.program s.selector σ site decl w ∧
          (s.program.dispatch w.object.type decl.target.sub = none → u.Heralds σ site w))
      (fun site u x ux h decl hd o ho w hw => (h decl hd o ho w hw).imp
        ux.reading.receiver_mono fun h none => ux.heralds (h none)) st.sound ?_) ?_
    · intro site mem u tu
      have su := st.trans tu
      have spec := ensures_processReceivers su.sound (su.elements.situation? hc) site delta
        (fun decl hd => ?_) fun o ho => ?_
      · rw [su.program, su.selector] at spec
        refine spec.mono fun _ y ⟨adds, granted⟩ => ⟨adds, fun decl hd o ho w hw => ?_⟩
        exact granted decl hd o ho w (su.elements.value? hw)
      · rw [su.program] at hd
        have base := ((indexed.invokes v uses huses site).1 mem).2
        rw [Catalog.base?, hd, Option.bind_some] at base
        by_contra other
        rw [if_neg other] at base
        cases base
      · obtain ⟨w, hw, -, receivers⟩ := arrival o ho
        rw [su.program, su.selector]
        exact ⟨w, su.elements.value? hw, receivers site mem⟩
    · rintro _ u ⟨tu, granted⟩
      refine ensures_modify.mono ?_
      rintro _ _ rfl
      have done : Adds F u _ := tu.sound.announce (e := .objects x delta)
        ⟨σ, v, (st.trans tu).elements.var? hx, fun o ho => by
          obtain ⟨w, hw, h, -⟩ := demand o ho
          rw [(st.trans tu).program]
          exact ⟨w, (st.trans tu).elements.value? hw, h⟩⟩
      refine ⟨(st.trans tu).trans done, Queue.mem_push.2 (.inr rfl), fun o ho w hw =>
        ⟨(Reading.arrival_iff indexed huses).2 ⟨?_, fun site mem decl hd => ?_⟩,
          fun site fails => ?_⟩⟩
      · exact (tu.trans done).reading.accesses_mono (accessed o ho w hw)
      · exact done.reading.receiver_mono (granted site mem decl hd o ho w hw).1
      · obtain ⟨contains, base, decl, hd, none⟩ := fails
        have mem := (indexed.invokes v uses huses site).2 ⟨contains, base⟩
        exact done.heralds ((granted site mem decl hd o ho w hw).2 none)
  split
  next =>
    refine .bind (ensures_forM
      (D := fun o R => ∀ w, s.elements.value? o = some w → R.Accesses σ uses w)
      (fun o R S le h w hw => le.accesses_mono (h w hw)) hs ?_) fun _ t ⟨st, granted⟩ =>
        rest st fun o ho => granted o (HybridSet.mem_toList.2 ho)
    intro o ho t st
    obtain ⟨w, hw, accesses, -⟩ := arrival o (HybridSet.mem_toList.1 ho)
    refine (ensures_processAccesses st.sound (st.elements.situation? hc) (st.elements.value? hw)
      (by rw [st.program]; exact accesses)).mono ?_
    refine fun _ u ⟨adds, granted⟩ => ⟨adds, fun w' hw' => ?_⟩
    cases hw.symm.trans hw'
    exact granted
  next none =>
    exact rest (.refl hs) fun o ho w hw =>
      Reading.accesses_of_not_hasAccesses (Bool.not_eq_true _ ▸ none)

end Arrivals

end Solve
end PointsTo
