import PointsTo.Proofs.Safety.Reacting

/-!
Function values keep a state in order: they are created and called in methods that are reached, and
their calls are announced before anything flows into the callee.
-/
namespace PointsTo.Lambda

open Facts Solve

variable {p : Program} {sel : Selector} {s t : Solver} {c d : ContextId} {m : MethodId}

/-- A call of a function value can be made. -/
structure Ready (p : Catalog) (limit : Nat) (i : Invocation) (s : Solver) : Prop where
  site : ∃ c site decl, s.elements.sites.get? i.site = some ⟨c, site⟩ ∧
    p.callSites[site]? = some decl ∧ s.Reached c decl.container
  creation : ∃ decl, p.callSites[i.creation]? = some decl
  context : s.elements.Knows p limit i.creationContext

/-- What is known of function values names something. -/
structure Kept (p : Catalog) (limit : Nat) (l : State) (s : Solver) : Prop where
  values : ∀ m, ∀ value ∈ l.valuesOf m, (∃ decl, p.callSites[value.1]? = some decl ∧
    decl.container = m) ∧ ∃ a, s.elements.heap.get? value.2 = some a
  waiting : ∀ x, ∀ i ∈ l.waitingOn x, Ready p limit i s

theorem Ready.kept {i : Invocation} (h : Ready p.toCatalog sel.limit i s) (st : s.Keeps t) :
    Ready p.toCatalog sel.limit i t where
  site := by
    obtain ⟨c, site, decl, hs, hd, reached⟩ := h.site
    exact ⟨c, site, decl, st.elements.sites _ _ hs, hd, reached.kept st⟩
  creation := h.creation
  context := h.context.within st.elements

theorem Kept.stable (l : State) (s t : Solver) (h : Kept p.toCatalog sel.limit l s) (st : s.Keeps t) :
    Kept p.toCatalog sel.limit l t where
  values m value mem := (h.values m value mem).imp_right (.imp fun _ => st.elements.heap _ _)
  waiting x i mem := (h.waiting x i mem).kept st

theorem Kept.addValue {l : State} (h : Kept p.toCatalog sel.limit l s) {site : CallSiteId} {decl : CallSite}
    (hd : p.callSites[site]? = some decl) (container : decl.container = m) {o : ObjectId}
    (ho : ∃ a, s.elements.heap.get? o = some a) : Kept p.toCatalog sel.limit (l.addValue m site o) s where
  values n value mem := by
    obtain old | ⟨rfl, rfl⟩ := State.mem_valuesOf_addValue.1 mem
    · exact h.values n value old
    · exact ⟨⟨decl, hd, container⟩, ho⟩
  waiting := h.waiting

theorem Kept.wait {l : State} (h : Kept p.toCatalog sel.limit l s) {x : ContextVarId} {i : Invocation}
    (ready : Ready p.toCatalog sel.limit i s) : Kept p.toCatalog sel.limit (l.wait x i) s where
  values m value mem := h.values m value (State.valuesOf_wait ▸ mem)
  waiting y j mem := by
    obtain old | ⟨-, rfl⟩ := State.mem_waitingOn_wait.1 mem
    · exact h.waiting y j old
    · exact ready

/-! ### Calls of function values -/

theorem safe_handleOf (hs : Grounded p sel none s) {creation : CallSiteId} {decl : CallSite}
    (hd : p.callSites[creation]? = some decl) :
    Safe (handleOf creation) s fun handle t => s = t ∧ p.Spells handle.target := by
  refine .bind (safe_callSite (d := decl) (by rw [hs.program]; exact hd)) ?_
  rintro decl _ ⟨rfl, rfl⟩
  split
  next bootstrap handle kind =>
    exact .pure ⟨rfl, (hs.wellFormed.complete.sites creation decl hd).handle bootstrap handle kind⟩
  next =>
    obtain ⟨text, htext⟩ := hs.siteText? hd
    exact .bind (safe_siteText htext) fun _ _ _ => .throw id

section Invocation

variable {i : Invocation} (ready : Ready p.toCatalog sel.limit i s)
include ready

theorem advancing_addCall {receiver : Option ContextObjectId}
    (known : ∀ o, receiver = some o → ∃ pair, s.elements.objects.get? o = some pair)
    (hm : ∃ target, p.methods[m]? = some target) :
    Advancing p sel none (addCall i receiver m) s fun _ _ => True := by
  obtain ⟨c, site, decl, hsite, hd, reached⟩ := ready.site
  obtain ⟨created, hcreated⟩ := ready.creation
  obtain ⟨target, htarget⟩ := hm
  -- a call that is queued in the end lets the receiver be bound before
  have queued {promised : Option (ContextId × MethodId)} {d : ContextId} {t : Solver} (st : s.Later t)
      (hcc : t.elements.Knows p.toCatalog sel.limit d) : Advancing p sel promised (do
        let contextCallee ← change (·.internMethod d m)
        let origin ← change (·.internSite i.creationContext i.creation)
        modify (·.queueCall ⟨i.site, contextCallee, .extension callTag origin⟩) : Solve Unit) t
        fun _ u => u.Alive none d m ∧ True := by
    refine .bind (advancing_internMethod hcc (Roster.lt_size htarget)) fun cm u tu hcm => ?_
    refine .bind (advancing_internSite (ready.context.within (st.trans tu).elements)
      (Roster.lt_size hcreated)) fun origin v uv horigin => ?_
    have sv := (st.trans tu).trans uv
    have callee := uv.elements.methods _ _ hcm
    have placed : v.Placed p.toCatalog ⟨i.site, cm, .extension callTag origin⟩ :=
      ⟨⟨c, site, decl, sv.elements.sites _ _ hsite, hd, reached.kept sv.toKeeps⟩, ⟨_, callee⟩,
        by rintro _ _ ⟨⟩; exact ⟨_, horigin⟩⟩
    exact (advancing_queueCall placed callee).mono fun _ _ _ alive => ⟨alive, trivial⟩
  cases receiver with
  | some o =>
    have ho := known o rfl
    refine .bind (advancing_dispatchContext hsite ho) fun cc t st hcc => ?_
    refine .promising (c := cc) (m := m) ?_
    exact .bind (advancing_bindReceiver hcc ⟨target, htarget⟩ (ho.imp (st.elements.objects o)))
      fun _ u tu _ => queued (st.trans tu) (hcc.within tu.elements)
  | none =>
    exact .bind (advancing_calleeContext hsite) fun cc t st hcc =>
      (queued st hcc).mono fun _ _ _ _ => trivial

theorem advancing_dispatchOn {receivers : Objects}
    (known : ∀ o ∈ receivers, ∃ pair, s.elements.objects.get? o = some pair) :
    Advancing p sel none (dispatchOn i receivers) s fun _ _ => True := fun hs => by
  obtain ⟨created, hcreated⟩ := ready.creation
  refine Advancing.afterAny (safe_handleOf hs hcreated) (fun handle _ => ?_) hs
  refine .forM fun o mem t st ht => ?_
  have ho := (known o (HybridSet.mem_toList.1 mem)).imp (st.elements.objects o)
  refine Advancing.afterAny (safe_dispatch? ht ho handle.target) (fun callee declared => ?_) ht
  cases callee with
  | none => exact .pure trivial
  | some callee =>
    refine advancing_addCall (ready.kept st.toKeeps) ?_ (declared callee rfl)
    rintro _ ⟨⟩
    exact ho

end Invocation

/-! ### Events -/

theorem reacting_createValues {st : State × Solver} (hm : m.index < p.methods.size) :
    Reacting p sel (Kept p.toCatalog sel.limit) (createValues m) st fun _ _ => True := fun hs hJ => by
  obtain ⟨decl, hd⟩ := Roster.exists_getElem? hm
  have scope := hs.wellFormed.owned.methods m decl hd
  refine Reacting.after (safe_methodDecl (d := decl) (by rw [hs.program]; exact hd)) ?_ hs hJ
  refine .forM fun statement mem u su hu hJ => ?_
  split
  next site =>
    obtain ⟨site', hsite, container⟩ := scope.invokes site (Array.mem_toList_iff.1 mem)
    refine Reacting.after (safe_callSite (d := site') (by rw [hu.program]; exact hsite)) ?_ hu hJ
    split
    · split
      next _ result type same =>
        obtain ⟨-, htype⟩ := Prod.mk.inj same
        have ht := (hs.wellFormed.complete.sites site site' hsite).target.result type htype
        have allowed : functionValue ∈ mockDescriptions := by simp [mockDescriptions]
        refine .bind (.solve Kept.stable (advancing_mock allowed (Roster.lt_size hsite) ht ?_))
          fun o v uv ho => .modifyOwn (fun hv => hv.addValue hsite container ho) trivial
        rintro _ ⟨⟩
        exact hm
      next => exact .pure trivial
    · exact .pure trivial
  next => exact Reacting.pure trivial hu hJ

theorem reacting_placeValues {st : State × Solver} {cm : ContextMethodId}
    (hcm : st.2.elements.methods.get? cm = some ⟨c, m⟩) (reached : st.2.calls.Reaches cm) :
    Reacting p sel (Kept p.toCatalog sel.limit) (placeValues cm) st fun _ _ => True := fun hs hJ => by
  refine Reacting.after (safe_methodAt hcm) (.afterOwn ?_) hs hJ
  refine .forM fun (site, o) mem u su hu hJu => ?_
  obtain ⟨⟨decl, hd, rfl⟩, ho⟩ := hJ.values m _ mem
  refine Reacting.after (safe_callSite (d := decl) (by rw [hu.program]; exact hd)) ?_ hu hJu
  split
  next result hresult =>
    have owns := hs.wellFormed.owned.sites site decl hd result (by simp [CallSite.vars, hresult])
    have reachedNow : u.2.Reached c decl.container :=
      ⟨cm, su.elements.methods _ _ hcm, su.reached cm reached⟩
    exact .solve Kept.stable (advancing_addObjectIn (hu.admits reachedNow owns)
      (hu.knows reachedNow) (ho.imp (su.elements.heap o)))
  next => exact .pure trivial

section Claims

variable {i : Invocation} {site : CallSiteId} {decl creation : CallSite}

theorem advancing_construct (ready : Ready p.toCatalog sel.limit i s)
    (hd : p.callSites[site]? = some decl) (reached : s.Reached c decl.container)
    (hcreation : p.callSites[i.creation]? = some creation)
    (hm : ∃ target, p.methods[m]? = some target) :
    Advancing p sel none (construct i c decl creation m) s fun _ _ => True := fun hs => by
  obtain ⟨target, htarget⟩ := hm
  have sealedSite := hs.wellFormed.complete.sites _ _ hcreation
  have ht := (hs.wellFormed.complete.methods m target htarget).ref.owner
  have allowed : constructedObject ∈ mockDescriptions := by simp [mockDescriptions]
  have hc := hs.knows reached
  refine Advancing.after (safe_methodDecl (d := target) (by rw [hs.program]; exact htarget)) ?_ hs
  refine .bind (advancing_mock allowed (Roster.lt_size hcreation) ht ?_) fun o t st ho => ?_
  · rintro _ ⟨⟩
    exact sealedSite.container
  refine .bind (advancing_internObject (hc.within st.elements) ho) fun o' u tu ho' => ?_
  have su := st.trans tu
  have called {v : Solver} (uv : u.Later v) :
      Advancing p sel none (addCall i (some o') m) v fun _ _ => True := by
    refine advancing_addCall (ready.kept (su.trans uv).toKeeps) ?_ ⟨target, htarget⟩
    rintro _ ⟨⟩
    exact ⟨_, uv.elements.objects _ _ ho'⟩
  split
  next result hresult =>
    have owns := hs.wellFormed.owned.sites site decl hd result (by simp [CallSite.vars, hresult])
    have admits := (hs.admits reached owns).later su
    refine .bind (advancing_internVar admits.1 owns.lt_size) fun x v uv hx => ?_
    refine .bind (.modify (Q := fun _ _ => True) (fun hv => hv.addVarObject
      ⟨c, result, hx, (admits.later uv).2⟩ ⟨_, uv.elements.objects _ _ ho'⟩) trivial) ?_
    exact fun _ w vw _ => called (uv.trans vw)
  next => exact called (.refl u)

/-- The receiver of a function value is a variable of the creation or of the call. -/
theorem receiverOf?_spec (hs : Grounded p sel none s) (ready : Ready p.toCatalog sel.limit i s)
    (hd : p.callSites[site]? = some decl) (reached : s.Reached c decl.container)
    (hcreation : p.callSites[i.creation]? = some creation) {rc : ContextId} {v : VarId}
    (h : receiverOf? i c decl creation = some (rc, v)) :
    s.elements.Knows p.toCatalog sel.limit rc ∧ v.index < p.vars.size := by
  unfold receiverOf? at h
  split at h
  next args =>
    cases h
    exact ⟨ready.context, (hs.wellFormed.owned.sites _ _ hcreation v (by
      simp [CallSite.vars, args])).lt_size⟩
  next args =>
    cases h
    exact ⟨hs.knows reached, (hs.wellFormed.owned.sites _ _ hd v (by
      simp [CallSite.vars, args])).lt_size⟩
  next => cases h

theorem known_varObjects (hs : Grounded p sel none s) {x : ContextVarId} {o : ContextObjectId}
    (ho : o ∈ s.varObjects x) : ∃ pair, s.elements.objects.get? o = some pair := by
  obtain ⟨n, -, mem⟩ := Solver.mem_pointsTo_iff.1 ho
  exact (hs.points n o mem).2

theorem reacting_invoke {st : State × Solver} (ready : Ready p.toCatalog sel.limit i st.2)
    (hd : p.callSites[site]? = some decl) (reached : st.2.Reached c decl.container)
    (hcreation : p.callSites[i.creation]? = some creation) :
    Reacting p sel (Kept p.toCatalog sel.limit) (invoke i c site decl creation) st fun _ _ => True :=
  fun hs hJ => by
  obtain ⟨created, hcreated⟩ := hs.siteText? hcreation
  obtain ⟨called, hcalled⟩ := hs.siteText? hd
  refine Reacting.afterAny (safe_handleOf hs hcreation) (fun handle spells => ?_) hs hJ
  refine .afterSolver ?_
  split
  next =>
    obtain ⟨target, htarget⟩ := spells.refSignature?
    refine .after safe_catalog (.after (a := target) ?_ (.after (safe_siteText hcreated) ?_))
    · rw [Solver.catalog, hs.program]
      exact safe_known htarget
    · exact .solve Kept.stable (advancing_warn _)
  next target resolved =>
    rw [hs.program] at resolved
    have declared := hs.wellFormed.resolve resolved
    cases handle.kind with
    | newInvokeSpecial =>
      exact .solve Kept.stable (advancing_construct ready hd reached hcreation declared)
    | invokeInterface | invokeVirtual | invokeSpecial =>
      dsimp only
      split
      next => exact .after (safe_siteText hcreated) (.after (safe_siteText hcalled)
        (.solve Kept.stable (advancing_warn _)))
      next rc v hv =>
        obtain ⟨known, lt⟩ := receiverOf?_spec hs ready hd reached hcreation hv
        refine .bind (.solve Kept.stable (advancing_internVar known lt)) fun x u su hx => ?_
        refine .afterSolver fun hu => ?_
        refine Reacting.bind (.solve Kept.stable (advancing_dispatchOn (ready.kept su.toKeeps)
          fun o => known_varObjects hu)) (fun _ v uv _ => ?_) hu
        exact .modifyOwn (fun hv => hv.wait (ready.kept (su.trans uv).toKeeps)) trivial
    | invokeStatic =>
      exact .solve Kept.stable (advancing_addCall ready (fun _ none => by cases none) declared)
    | getField | getStatic | putField | putStatic => exact .after (safe_siteText hcreated) (.throw id)

/-- Calls without a target are claimed with what is known of their receiver. -/
theorem reacting_claim {st : State × Solver} {receiver : Option ContextObjectId}
    (hv : st.2.Vouches p.toCatalog (.unresolved receiver c site)) :
    Reacting p sel (Kept p.toCatalog sel.limit) (claim receiver c site) st fun _ _ => True :=
  fun hs hJ => by
  obtain ⟨⟨decl, hd, reached⟩, known⟩ := hv
  have siteDecl {u : State × Solver} (hu : Grounded p sel none u.2) {site : CallSiteId}
      {decl : CallSite} (hd : p.callSites[site]? = some decl) :
      Safe (callSite site) u.2 fun a t => u.2 = t ∧ a = decl :=
    safe_callSite (by rw [hu.program]; exact hd)
  cases receiver with
  | none => exact Reacting.after (siteDecl hs hd) (.pure trivial) hs hJ
  | some o =>
    obtain ⟨pair, hpair⟩ := known o rfl
    obtain ⟨a, ha, makes⟩ := hs.object? ⟨pair, hpair⟩
    have hcontext := (hs.elements.objects o pair hpair).1
    refine Reacting.afterSolver (.after (safe_known hpair) (.after (safe_objectAt ha) ?_)) hs hJ
    split
    next => exact .pure trivial
    next description creation origin =>
      have lt : creation.index < p.callSites.size := by
        have located := makes.origin
        rw [origin] at located
        exact located.2
      obtain ⟨created, hcreated⟩ := Roster.exists_getElem? lt
      have invoked : Reacting p sel (Kept p.toCatalog sel.limit) (do
          let creationDecl ← callSite creation
          let decl ← callSite site
          if creationDecl.target.sub.name = decl.target.sub.name then
            let contextSite ← change (·.internSite c site)
            invoke ⟨contextSite, creation, pair.context⟩ c site decl creationDecl
          return true) st fun _ _ => True := by
        refine .after (siteDecl hs hcreated) (.after (siteDecl hs hd) ?_)
        split
        · refine .bind (.solve Kept.stable (advancing_internSite (hs.knows reached)
            (Roster.lt_size hd))) fun cs u su hcs => ?_
          have reachedNow := reached.kept su.toKeeps
          have ready : Ready p.toCatalog sel.limit ⟨cs, creation, pair.context⟩ u.2 :=
            ⟨⟨c, site, decl, hcs, hd, reachedNow⟩, ⟨created, hcreated⟩,
              hcontext.within su.elements⟩
          exact .bind (reacting_invoke ready hd reachedNow hcreated) fun _ _ _ _ => .pure trivial
        · exact .pure trivial
      split
      · exact .pure trivial
      · exact invoked

end Claims

/-! ### Links -/

theorem advancing_linkCall {e : CallEdge} (settled : s.Settled p.toCatalog e) :
    Advancing p sel none (linkCall e) s fun _ _ => True := fun hs => by
  unfold linkCall
  split
  case h_2 => exact Advancing.pure trivial hs
  next tag origin kind =>
  split
  case isFalse => exact Advancing.pure trivial hs
  obtain ⟨c, site, decl, hsite, hd, caller⟩ := settled.site
  obtain ⟨⟨d, m⟩, hcallee⟩ := settled.callee
  obtain ⟨creation, hcreation⟩ := settled.origin tag origin kind
  obtain ⟨created, hcreated⟩ := Roster.exists_getElem? (hs.elements.sites _ _ hcreation).2
  obtain ⟨target, htarget⟩ := Roster.exists_getElem? (hs.elements.methods _ _ hcallee).2
  have scope := hs.wellFormed.owned.methods m target htarget
  have callee : s.Reached d m := ⟨e.callee, hcallee, settled.reached⟩
  refine Advancing.after (safe_siteAt hcreation) (.after (safe_siteAt hsite)
    (.after (safe_methodAt hcallee) (.after (safe_callSite (d := created) ?_)
      (.after (safe_callSite (d := decl) ?_) (.after (safe_methodDecl (d := target) ?_) ?_))))) hs
  · rw [hs.program]
    exact hcreated
  · rw [hs.program]
    exact hd
  · rw [hs.program]
    exact htarget
  refine .bind (.forM fun pair mem t st => ?_) fun _ t st _ => ?_
  · obtain ⟨⟨ac, arg⟩, param⟩ := pair
    obtain ⟨harg, hparam⟩ := List.of_mem_zip mem
    have argument : s.elements.Knows p.toCatalog sel.limit ac ∧ arg.index < p.vars.size := by
      obtain ⟨same, harg⟩ | ⟨same, harg⟩ := mem_arguments harg
      · have owns := hs.wellFormed.owned.sites _ _ hcreated arg (by simp [CallSite.vars, harg])
        exact ⟨(show ac = creation.context from same) ▸ (hs.elements.sites _ _ hcreation).1,
          owns.lt_size⟩
      · have owns := hs.wellFormed.owned.sites _ _ hd arg (by simp [CallSite.vars, harg])
        exact ⟨(show ac = c from same) ▸ hs.knows caller, owns.lt_size⟩
    exact advancing_addVarFlow (argument.1.within st.elements) argument.2
      ((hs.admits callee (scope.params param hparam)).later st) fun _ cast => by cases cast
  · split
    next _ result same =>
      obtain ⟨hresult, -⟩ := Prod.mk.inj same
      have owns := hs.wellFormed.owned.sites site decl hd result (by
        simp [CallSite.vars, hresult])
      refine .forM fun value mem u tu => ?_
      have su := st.trans tu
      exact advancing_addVarFlow ((hs.knows callee).within su.elements)
        (scope.returns value mem).lt_size ((hs.admits caller owns).later su)
        fun _ cast => by cases cast
    next => exact .pure trivial

theorem reacting_redispatch {st : State × Solver} {x : ContextVarId} {delta : Objects}
    (known : ∀ o ∈ delta, ∃ pair, st.2.elements.objects.get? o = some pair) :
    Reacting p sel (Kept p.toCatalog sel.limit) (redispatch x delta) st fun _ _ => True := fun hs hJ => by
  refine Reacting.afterOwn (.forM fun i mem u su => ?_) hs hJ
  exact .solve Kept.stable (advancing_dispatchOn ((hJ.waiting x i mem).kept su.toKeeps)
    fun o ho => (known o ho).imp (su.elements.objects o))

theorem secure_plugin : plugin.Secure p sel (Kept p.toCatalog sel.limit) where
  onStart _ := .pure trivial
  onMethod _ _ hm := reacting_createValues hm
  onContextMethod _ _ h := by
    obtain ⟨⟨⟨c, m⟩, hcm⟩, reached⟩ := h
    exact reacting_placeValues hcm reached
  onCall _ _ settled := .solve Kept.stable (advancing_linkCall settled)
  onUnresolved _ _ _ _ h := reacting_claim h
  onObjects _ _ _ h := reacting_redispatch h.2
  onFinish _ := .pure trivial

end PointsTo.Lambda
