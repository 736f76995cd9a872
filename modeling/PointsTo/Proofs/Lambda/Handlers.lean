import PointsTo.Proofs.Lambda.Reactions

/-!
The reactions to function values, event by event: what each adds, and which part of the rules it
puts into effect.
-/
namespace PointsTo.Lambda

open Facts Solve

variable {l : State} {s : Solver}

/-! ### Making function values -/

theorem reacts_addValue (hs : Sound .all s) (hl : Knows l s) {m : MethodId} {site : CallSiteId}
    {o : ObjectId} (ho : ∃ a, s.elements.heap.get? o = some a) :
    Reacts (l, s) (l.addValue m site o, s) where
  adds := .refl hs
  knows :=
    { hl with
      values := fun n pair mem => by
        obtain old | ⟨-, rfl⟩ := State.mem_valuesOf_addValue.1 mem
        · exact hl.values n pair old
        · exact ho }
  values _ _ mem := State.mem_valuesOf_addValue.2 (.inl mem)
  kept _ _ := id
  caught _ _ := .inl

/-- The function value of a creation site is on record. -/
def Stocked (m : MethodId) (site : CallSiteId) (type : TypeId) (l : State) (s : Solver) : Prop :=
  ∃ o, (site, o) ∈ l.valuesOf m ∧
    s.elements.heap.get? o = some ⟨.mock functionValue site, type, some m⟩

theorem Stocked.reacts {m : MethodId} {site : CallSiteId} {type : TypeId} {a b : State × Solver}
    (h : Stocked m site type a.1 a.2) (ab : Reacts a b) : Stocked m site type b.1 b.2 :=
  h.imp fun o => .imp (ab.values m _) (ab.adds.elements.heap o _)

theorem dynamic_of_isCreation {decl : CallSite} (h : isCreation decl = true) :
    ∃ call, decl.kind = .dynamic call := by
  unfold isCreation at h
  split at h
  next call hk => exact ⟨call, hk⟩
  next => cases h

/-- A function value belongs to the only method that can make it. -/
theorem container_of_houses {p : Program} (owned : p.toCatalog.Scoped) {m : MethodId}
    {d : MethodDecl} (hd : p.methods[m]? = some d) {site : CallSiteId} (mem : .invoke site ∈ d.body)
    {type : TypeId} {other : Option MethodId} (houses : p.Houses functionValue site type other) :
    other = some m := by
  obtain ⟨m', d', -, rfl, hd', mem', -⟩ := houses.made rfl
  obtain ⟨decl, hs, rfl⟩ := (owned.methods m d hd).invokes site mem
  obtain ⟨decl', hs', rfl⟩ := (owned.methods m' d' hd').invokes site mem'
  cases hs.symm.trans hs'
  rfl

/-- The function values of a method are made, and those of a well scoped program are on record. -/
theorem ensures_createValues (hs : Sound .all s) (hl : Knows l s) {m : MethodId} :
    Ensures (createValues m) (l, s) fun _ st => Reacts (l, s) st ∧
      (s.program.toCatalog.Scoped → ∀ site result type, Creates s.program m site result type →
        Stocked m site type st.1 st.2) := by
  refine .bind (ensures_lookup ensures_methodDecl) ?_
  rintro d _ ⟨rfl, hd⟩
  refine (Ensures.forM (R := Reacts) (D := fun (stmt : Statement) st => s.program.toCatalog.Scoped →
      ∀ site decl type, stmt = .invoke site → s.program.callSites[site]? = some decl →
        isCreation decl = true → decl.result.isSome → decl.target.sub.result = some type →
        Stocked m site type st.1 st.2) (fun _ _ => .again) (fun _ _ _ => .trans)
    (fun _ a b ab h owned site decl type same hdecl isc hr ht =>
      (h owned site decl type same hdecl isc hr ht).reacts ab) (.refl hs hl) ?_).mono ?_
  · rintro stmt mem ⟨l', t⟩ st
    have same := st.again
    split
    next site =>
      refine .bind (ensures_lookup ensures_callSite) ?_
      rintro decl _ ⟨rfl, hdecl⟩
      rw [st.adds.program] at hdecl
      have isInvoke : .invoke site ∈ d.body := Array.mem_def.2 mem
      split
      next isc =>
        split
        next result type hr =>
          obtain ⟨hr, ht⟩ := Prod.mk.inj hr
          have fits : t.program.Fits ⟨.mock functionValue site, type, some m⟩ := by
            rw [st.adds.program]
            exact Program.houses_functionValue hdecl hd isInvoke ⟨dynamic_of_isCreation isc, ht⟩
          obtain ⟨adds, a, ha, -⟩ := st.adds.sound.internHeap fits
          have exact (owned : s.program.toCatalog.Scoped) :=
            (st.adds.sound.mockIn type fits fun other houses => by
              rw [st.adds.program] at houses
              exact container_of_houses owned hd isInvoke houses).2
          refine .bind (ensures_solve (Q := fun o tu => tu.1 = l' ∧ Adds .all t tu.2 ∧
            (∃ a, tu.2.elements.heap.get? o = some a) ∧ (s.program.toCatalog.Scoped →
              tu.2.elements.heap.get? o =
                some ⟨.mock functionValue site, type, some m⟩)) ?_) ?_
          · refine ensures_change.mono ?_
            rintro _ _ ⟨rfl, rfl⟩
            exact ⟨rfl, adds, ⟨a, ha⟩, exact⟩
          · rintro o ⟨_, v⟩ ⟨rfl, tv, ho, made⟩
            refine ensures_modifyOwn ⟨.trans (.of_adds st.knows tv) ?_, ?_⟩
            · exact reacts_addValue tv.sound (st.knows.grows tv.toGrows) ho
            · rintro owned _ decl' type' ⟨⟩ hdecl' - - ht'
              cases hdecl.symm.trans hdecl'
              cases ht.symm.trans ht'
              exact ⟨o, State.mem_valuesOf_addValue.2 (.inr ⟨rfl, rfl⟩), made owned⟩
        next none =>
          refine .pure ⟨same, ?_⟩
          rintro - _ decl' type ⟨⟩ hdecl' - hr ht
          cases hdecl.symm.trans hdecl'
          obtain ⟨result, hr⟩ := Option.isSome_iff_exists.1 hr
          exact absurd (Prod.ext hr ht) (none result type)
      next other =>
        refine .pure ⟨same, ?_⟩
        rintro - _ decl' type ⟨⟩ hdecl' isc
        cases hdecl.symm.trans hdecl'
        exact absurd isc other
    next other => exact .pure ⟨same, fun _ site _ _ same => absurd same (other site)⟩
  · rintro _ st ⟨reacts, stocked⟩
    refine ⟨reacts, ?_⟩
    rintro owned site result type ⟨d', decl, hd', mem, hdecl, isc, hr, ht⟩
    cases hd.symm.trans hd'
    exact stocked _ (Array.mem_def.1 mem) owned site decl type rfl hdecl isc (by simp [hr]) ht

/-- The function values of a method that are on record reach the results of their creation sites. -/
theorem ensures_placeValues (hs : Sound .all s) (hl : Knows l s) {cm : ContextMethodId} :
    Ensures (placeValues cm) (l, s) fun _ st => Reacts (l, s) st ∧
      ∀ c m, s.elements.copy? s.elements.methods cm = some (c, m) →
        ∀ site result type, Creates s.program m site result type → Stocked m site type l s →
          st.2.Points (.var c result) (valueIn c m site type) := by
  refine .bind (ensures_lookup ensures_methodAt) ?_
  rintro pair _ ⟨rfl, hm⟩
  obtain ⟨c, hc⟩ := hs.readable.methods cm pair hm
  refine .bind ensures_own ?_
  rintro _ _ ⟨rfl, rfl⟩
  refine (Ensures.forM (R := Reacts) (D := fun (entry : CallSiteId × ObjectId) st =>
      ∀ decl result a, s.program.callSites[entry.1]? = some decl → decl.result = some result →
        s.elements.heap.get? entry.2 = some a → st.2.Points (.var c result) ⟨c, a⟩)
    (fun _ _ => .again) (fun _ _ _ => .trans) (fun _ _ _ st placed decl result a hd hr ha =>
      st.adds.reading.points _ _ (placed decl result a hd hr ha)) (.refl hs hl) ?_).mono ?_
  · rintro ⟨site, o⟩ mem ⟨l', t⟩ st
    refine .bind (ensures_lookup ensures_callSite) ?_
    rintro decl _ ⟨rfl, hdecl⟩
    rw [st.adds.program] at hdecl
    split
    next result hr =>
      obtain ⟨a, ha⟩ := hl.values _ _ mem
      have hc' := st.adds.elements.situation? hc
      obtain ⟨adds, points⟩ := st.adds.sound.addObjectIn (v := result) hc' hc'
        (st.adds.elements.heap _ _ ha) Solution.points_all
      refine ensures_solve (ensures_modify.mono ?_)
      rintro _ _ rfl
      refine ⟨.of_adds st.knows adds, fun decl' result' a' hdecl' hr' ha' => ?_⟩
      cases hdecl.symm.trans hdecl'
      cases hr.symm.trans hr'
      cases ha.symm.trans ha'
      exact points
    next none =>
      refine .pure ⟨st.again, fun decl' result a hdecl' hr _ => ?_⟩
      cases hdecl.symm.trans hdecl'
      exact absurd hr (none result)
  · rintro _ st ⟨reacts, placed⟩
    refine ⟨reacts, ?_⟩
    rintro c' m hcm site result type ⟨d, decl, -, -, hdecl, -, hr, -⟩ ⟨o, mem, ho⟩
    cases hcm.symm.trans (Elements.copy?_eq_some_iff.2 ⟨_, hm, hc⟩)
    exact placed _ mem decl result _ hdecl hr ho

/-! ### Calls on function values -/

/-- A call waits for the objects of its receiver, if it has one. -/
def Use.Waits (u : Use) (l : State) (s : Solver) (decl created : CallSite) : Prop :=
  ∀ P, u.receiver? decl created = some P → ∃ x i, s.elements.place? (.var x) = some P ∧
    i ∈ l.waitingOn x ∧ i.Means s.elements u

/-- A constructor has been called on the object that it is to construct, which is the result of the
call. -/
def Use.Constructs (u : Use) (s : Solver) (decl created : CallSite) (target : MethodId) : Prop :=
  ∃ d, s.program.methods[target]? = some d ∧ u.Serves s (u.constructed created d) target ∧
    ∀ result, decl.result = some result →
      s.Points (.var u.context result) (u.constructed created d)

theorem Use.Constructs.grows {u : Use} {t : Solver} {decl created : CallSite} {target : MethodId}
    (h : u.Constructs s decl created target) (g : s.Grows t) :
    u.Constructs t decl created target := by
  obtain ⟨d, hd, serves, placed⟩ := h
  exact ⟨d, by rw [g.program, hd], serves.grows g,
    fun result hr => g.reading.points _ _ (placed result hr)⟩

/-- What is done about a call on a function value that hands over `target`: the call has been found,
or it waits for receivers. -/
def Use.Settled (u : Use) (l : State) (s : Solver) (decl created : CallSite)
    (target : MethodId) : HandleKind → Prop
  | .invokeStatic => s.Calls u.context u.site (s.selector.calleeSituation u.context u.site) target
  | .newInvokeSpecial => u.Constructs s decl created target
  | .invokeInterface | .invokeVirtual | .invokeSpecial => u.Waits l s decl created
  | .getField | .getStatic | .putField | .putStatic => True

/-- The rules for a call on a function value have taken effect. -/
def Use.Engaged (u : Use) (l : State) (s : Solver) : Prop :=
  ∀ decl created handle target, u.Takes s.program decl created handle target →
    u.Settled l s decl created target handle.kind

theorem Use.Engaged.grows {u : Use} {l' : State} {t : Solver} (h : u.Engaged l s) (g : s.Grows t)
    (kept : ∀ x i, i ∈ l.waitingOn x → i ∈ l'.waitingOn x) : u.Engaged l' t := by
  intro decl created handle target takes
  rw [g.program] at takes
  have h := h decl created handle target takes
  have waits (h : u.Waits l s decl created) : u.Waits l' t decl created := fun P hP => by
    obtain ⟨x, i, hx, mem, means⟩ := h P hP
    exact ⟨x, i, g.elements.place? hx, kept x i mem, means.within g.elements⟩
  cases hk : handle.kind <;> rw [hk] at h
  case invokeStatic =>
    rw [Settled, g.selector]
    exact g.calls_mono h
  case newInvokeSpecial => exact Constructs.grows h g
  case invokeInterface | invokeVirtual | invokeSpecial => exact waits h
  all_goals trivial

variable {i : Invocation} {u : Use} {decl created : CallSite}

theorem ensures_construct (hs : Sound .all s) (hi : i.Means s.elements u) {context : ContextId}
    (hc : s.elements.situation? context = some u.context)
    (hcreated : s.program.callSites[u.creation]? = some created) {target : MethodId}
    (makes : ∀ d, s.program.methods[target]? = some d → s.program.Constructs created d.ref.owner) :
    Ensures (construct i context decl created target) s fun _ t => Adds .all s t ∧
      u.Constructs t decl created target := by
  refine .bind ensures_methodDecl ?_
  rintro d _ ⟨rfl, hd⟩
  rw [hi.creation]
  refine .bind ensures_change ?_
  rintro o _ ⟨rfl, rfl⟩
  obtain ⟨made, ha⟩ := hs.mock (.inr rfl) hcreated
    (Program.houses_constructed hcreated (makes d hd))
  refine .bind ensures_change ?_
  rintro o _ ⟨rfl, rfl⟩
  obtain ⟨placed, ho⟩ := made.sound.internObject (made.elements.situation? hc) ha
  have all := made.trans placed
  -- the call comes last, when the object has become the result, if there is one
  have call {t : Solver} (st : Adds .all s t) {x : ContextObjectId}
      (ho : t.elements.value? x = some (u.constructed created d))
      (result : ∀ result, decl.result = some result →
        t.Points (.var u.context result) (u.constructed created d)) :
      Ensures (addCall i (some x) target) t fun _ v => Adds .all s v ∧
        u.Constructs v decl created target := by
    refine (ensures_addCall_some st.sound (hi.within st.elements) ho).mono ?_
    rintro _ v ⟨tv, serves⟩
    have sv := st.trans tv
    exact ⟨sv, d, by rw [sv.program, hd], serves, fun r hr => tv.reading.points _ _ (result r hr)⟩
  split
  next result hr =>
    refine .bind ensures_change ?_
    rintro x _ ⟨rfl, rfl⟩
    obtain ⟨named, hx⟩ := placed.sound.internVar (v := result) (all.elements.situation? hc)
    refine .bind ensures_modify ?_
    rintro _ _ rfl
    obtain ⟨added, points⟩ :=
      named.sound.addVarObject hx (named.elements.value? ho) Solution.points_all
    refine call ((all.trans named).trans added)
      (added.elements.value? (named.elements.value? ho)) fun result' hr' => ?_
    cases hr.symm.trans hr'
    exact points
  next none => exact call all ho fun result hr => absurd hr (none result)

/-- The variable of the receiver that is looked up is the place of the receiver. -/
theorem receiver?_spec (decl created : CallSite) {context : ContextId}
    (hi : i.Means s.elements u)
    (hc : s.elements.situation? context = some u.context) :
    match receiverOf? i context decl created with
    | none => u.receiver? decl created = none
    | some (c, v) => ∃ σ, s.elements.situation? c = some σ ∧
      u.receiver? decl created = some (.var σ v) := by
  unfold Use.receiver? receiverOf?
  cases created.args with
  | cons => exact ⟨_, hi.creationContext, rfl⟩
  | nil =>
    cases decl.args with
    | cons => exact ⟨_, hc, rfl⟩
    | nil => rfl

/-- A call whose handle takes a receiver waits for the objects of the receiver, and has been made on
those that are there. -/
theorem ensures_await (hs : Sound .all s) (hl : Knows l s) (hi : i.Means s.elements u)
    {receiverContext : ContextId} {c : Situation} {v : VarId}
    (hc : s.elements.situation? receiverContext = some c) :
    Ensures (do
      let receiver ← Solve.change (·.internVar receiverContext v)
      dispatchOn i ((← Reaction.solver).varObjects receiver)
      Reaction.modifyOwn (·.wait receiver i) : Reaction State Unit) (l, s) fun _ st =>
        Reacts (l, s) st ∧ ∃ x i, st.2.elements.place? (.var x) = some (.var c v) ∧
          i ∈ st.1.waitingOn x ∧ i.Means st.2.elements u := by
  refine .bind (ensures_solve (Q := fun x st => l = st.1 ∧ Adds .all s st.2 ∧
    st.2.elements.copy? st.2.elements.vars x = some (c, v)) ?_) ?_
  · refine ensures_change.mono ?_
    rintro _ _ ⟨rfl, rfl⟩
    exact ⟨rfl, hs.internVar hc⟩
  rintro x ⟨_, t⟩ ⟨rfl, st, hx⟩
  refine .bind ensures_solver ?_
  rintro _ _ ⟨rfl, rfl⟩
  have hi' := hi.within st.elements
  have known (o) (ho : o ∈ t.varObjects x) : ∃ w, t.elements.value? o = some w := by
    obtain ⟨n, -, mem⟩ := Solver.mem_pointsTo_iff.1 ho
    obtain ⟨-, w, -, hw, -⟩ := st.sound.points n o mem
    exact ⟨w, hw⟩
  refine .bind (ensures_solve (Q := fun _ st => l = st.1 ∧ Adds .all t st.2 ∧
    ∀ o ∈ t.varObjects x, ∀ w, t.elements.value? o = some w → u.Answers st.2 w)
    ((ensures_dispatchOn st.sound hi' known).mono fun _ _ h => ⟨rfl, h⟩)) ?_
  rintro _ ⟨_, y⟩ ⟨rfl, ty, answers⟩
  have sy := st.trans ty
  have means := hi'.within ty.elements
  have hl' := hl.grows sy.toGrows
  refine ensures_modifyOwn ⟨⟨sy, ⟨fun m pair mem => ?_, fun x' i' mem => ?_⟩,
    fun m pair mem => State.valuesOf_wait.symm ▸ mem, fun x' i' mem => State.mem_waitingOn_wait.2 (.inl mem), fun x' i' mem => ?_⟩, x, i,
    ty.elements.place? (Elements.place?_var hx), State.mem_waitingOn_wait.2 (.inr ⟨rfl, rfl⟩),
    means⟩
  · exact hl'.values m pair (State.valuesOf_wait ▸ mem)
  · obtain old | ⟨rfl, rfl⟩ := State.mem_waitingOn_wait.1 mem
    · exact hl'.waiting x' i' old
    · exact ⟨u, means⟩
  · refine (State.mem_waitingOn_wait.1 mem).imp_right ?_
    rintro ⟨rfl, rfl⟩ n o hn ho u' w means' hw
    cases means.unique means'
    rw [ty.propagated] at ho
    obtain ⟨⟨p, hp⟩, w', hw'⟩ := known_of_propagated st.sound ho
    cases hw.symm.trans (ty.elements.value? hw')
    cases hn.symm.trans (ty.nodes n p hp)
    have mem := PendingStore.mem_all.2 (.inr ho)
    exact answers o (Solver.mem_pointsTo_iff.2 ⟨n, hp, mem⟩) w hw'

theorem ensures_text {site : CallSiteId} :
    Ensures (Reaction.solve (siteText site)) (l, s) fun _ st => (l, s) = st :=
  ensures_solve (ensures_siteText.mono fun _ _ h => by rw [h])

theorem ensures_receive (hs : Sound .all s) (hl : Knows l s) (hi : i.Means s.elements u)
    (decl created : CallSite)
    {context : ContextId} (hc : s.elements.situation? context = some u.context) :
    Ensures (match receiverOf? i context decl created with
      | none => do
        let created ← Solve.siteText i.creation
        let called ← Solve.siteText u.site
        Reaction.solve (modify (·.warn
          s!"No receiver for the lambda created at {created} called at {called}"))
      | some (receiverContext, receiver) => do
        let receiver ← Solve.change (·.internVar receiverContext receiver)
        dispatchOn i ((← Reaction.solver).varObjects receiver)
        Reaction.modifyOwn (·.wait receiver i) : Reaction State Unit) (l, s) fun _ st =>
      Reacts (l, s) st ∧ u.Waits st.1 st.2 decl created := by
  have place := receiver?_spec decl created hi hc
  split
  next none =>
    rw [none] at place
    refine .bind ensures_text ?_
    rintro _ _ rfl
    refine .bind ensures_text ?_
    rintro _ _ rfl
    refine ensures_solve (ensures_modify.mono ?_)
    rintro _ _ rfl
    exact ⟨.of_adds hl hs.warn, fun P hP => by cases place.symm.trans hP⟩
  next receiverContext v found =>
    rw [found] at place
    obtain ⟨c, hc', place⟩ := place
    refine (ensures_await hs hl hi hc').mono fun _ st ⟨reacts, waits⟩ => ⟨reacts, fun P hP => ?_⟩
    cases place.symm.trans hP
    exact waits

/-- The rules for a call on a function value take effect. -/
theorem ensures_invoke (hs : Sound .all s) (hl : Knows l s) (hi : i.Means s.elements u)
    {context : ContextId} (hc : s.elements.situation? context = some u.context)
    (hdecl : s.program.callSites[u.site]? = some decl)
    (hcreated : s.program.callSites[u.creation]? = some created) :
    Ensures (invoke i context u.site decl created) (l, s) fun _ st =>
      Reacts (l, s) st ∧ u.Engaged st.1 st.2 := by
  refine .bind (ensures_lookup ensures_handleOf) ?_
  rintro handle _ ⟨rfl, created', hcreated', bootstrap, hk⟩
  rw [hi.creation] at hcreated'
  cases hcreated.symm.trans hcreated'
  refine .bind ensures_solver ?_
  rintro _ _ ⟨rfl, rfl⟩
  -- whatever takes the call does so with this handle
  have engaged {l' : State} {t : Solver} (st : s.Grows t)
      (settled : ∀ target, s.program.resolve handle.target = some target →
        u.Settled l' t decl created target handle.kind) : u.Engaged l' t := by
    intro decl' created' handle' target takes
    rw [st.program] at takes
    obtain ⟨hd, hc', -, ⟨_, hk'⟩, ht⟩ := takes
    cases hdecl.symm.trans hd
    cases hcreated.symm.trans hc'
    cases hk.symm.trans hk'
    exact settled target ht
  split
  next none =>
    refine .bind (ensures_lookup ensures_catalog) ?_
    rintro _ _ ⟨rfl, -⟩
    refine .bind (ensures_lookup ensures_known) ?_
    rintro text _ ⟨rfl, -⟩
    refine .bind ensures_text ?_
    rintro _ _ rfl
    refine ensures_solve (ensures_modify.mono ?_)
    rintro _ _ rfl
    exact ⟨.of_adds hl hs.warn, engaged hs.warn.toGrows fun _ ht => by cases none.symm.trans ht⟩
  next target ht =>
    have engaged {l' : State} {t : Solver} (st : s.Grows t)
        (settled : u.Settled l' t decl created target handle.kind) : u.Engaged l' t :=
      engaged st fun target' ht' => by
        cases ht.symm.trans ht'
        exact settled
    have receive (waiting : ∀ {l' : State} {t : Solver}, s.Grows t →
        u.Waits l' t decl created → u.Engaged l' t) :=
      (ensures_receive hs hl hi decl created hc).mono
        (Q := fun _ st => Reacts (l, s) st ∧ u.Engaged st.1 st.2)
        fun _ st ⟨reacts, waits⟩ => ⟨reacts, waiting reacts.adds.toGrows waits⟩
    have refuse {text : String → Fault} : Ensures (do
        let created ← Solve.siteText i.creation
        throw (text created) : Reaction State Unit) (l, s) fun _ st =>
          Reacts (l, s) st ∧ u.Engaged st.1 st.2 :=
      .bind ensures_text fun _ _ _ => .throw
    cases kind : handle.kind <;> rw [kind] at engaged
    case invokeStatic =>
      refine ensures_solve ((ensures_addCall_none hs hi).mono fun _ t ⟨st, found⟩ => ?_)
      refine ⟨.of_adds hl st, engaged st.toGrows ?_⟩
      rw [Use.Settled, st.selector]
      exact found
    case newInvokeSpecial =>
      have makes d (hd : s.program.methods[target]? = some d) :
          s.program.Constructs created d.ref.owner :=
        ⟨bootstrap, handle, target, d, hk, kind, ht, hd, rfl⟩
      refine ensures_solve ((ensures_construct hs hi hc hcreated makes).mono
        fun _ t ⟨st, found⟩ => ?_)
      exact ⟨.of_adds hl st, engaged st.toGrows found⟩
    case invokeInterface | invokeVirtual | invokeSpecial => exact receive engaged
    case getField | getStatic | putField | putStatic => exact refuse

/-- What becomes of a call that has no target on an object. -/
theorem ensures_claim (hs : Sound .all s) (hl : Knows l s) {o : ContextObjectId}
    {context : ContextId} {c : Situation} {w : Value} (hc : s.elements.situation? context = some c)
    (ho : s.elements.value? o = some w) {site : CallSiteId} :
    Ensures (claim (some o) context site) (l, s) fun _ st => Reacts (l, s) st ∧
      ∀ creation, w.object.origin = .mock functionValue creation →
        (Use.mk c site w.context creation).Engaged st.1 st.2 := by
  refine .bind ensures_solver ?_
  rintro _ _ ⟨rfl, rfl⟩
  refine .bind (ensures_lookup ensures_known) ?_
  rintro pair _ ⟨rfl, hpair⟩
  refine .bind (ensures_lookup ensures_objectAt) ?_
  rintro object _ ⟨rfl, hobject⟩
  cases hobject.symm.trans (Elements.object?_of_value? ho)
  have same := Reacts.refl (a := (l, s)) hs hl
  split
  next origin => exact .pure ⟨same, fun creation ho => by cases origin.symm.trans ho⟩
  next description creationSite origin =>
    split
    next other =>
      refine .pure ⟨same, fun creation ho => ?_⟩
      cases origin.symm.trans ho
      simp at other
    next =>
      refine .bind (ensures_lookup ensures_callSite) ?_
      rintro created _ ⟨rfl, hcreated⟩
      refine .bind (ensures_lookup ensures_callSite) ?_
      rintro decl _ ⟨rfl, hdecl⟩
      split
      next names =>
        obtain ⟨x, hx, -⟩ := Elements.value?_eq_some_iff.1 ho
        obtain ⟨d, hd, hcontext⟩ := Elements.copy?_eq_some_iff.1 hx
        cases hpair.symm.trans hd
        obtain ⟨adds, hsite⟩ := hs.internSite hc site
        refine .bind (ensures_solve (Q := fun cs st => l = st.1 ∧ Adds .all s st.2 ∧
          st.2.elements.copy? st.2.elements.sites cs = some (c, site)) ?_) ?_
        · refine ensures_change.mono ?_
          rintro _ _ ⟨rfl, rfl⟩
          exact ⟨rfl, adds, hsite⟩
        · rintro cs ⟨_, t⟩ ⟨rfl, st, hcs⟩
          refine .bind (ensures_invoke (u := ⟨c, site, w.context, creationSite⟩) st.sound
            (hl.grows st.toGrows) ⟨hcs, st.elements.situation? hcontext, rfl⟩
            (st.elements.situation? hc) (by rw [st.program]; exact hdecl)
            (by rw [st.program]; exact hcreated)) ?_
          rintro _ ⟨l', v⟩ ⟨reacts, engaged⟩
          refine .pure ⟨.trans (.of_adds hl st) reacts, fun creation ho => ?_⟩
          cases origin.symm.trans ho
          exact engaged
      next names =>
        refine .pure ⟨same, fun creation ho decl' created' handle target takes => ?_⟩
        cases origin.symm.trans ho
        cases hdecl.symm.trans takes.site
        cases hcreated.symm.trans takes.creation
        exact absurd takes.names names

/-- Waiting calls are made on the new objects of their receiver. -/
theorem ensures_redispatch (hs : Sound .all s) (hl : Knows l s) {x : ContextVarId}
    {delta : Objects} (known : ∀ o ∈ delta, ∃ w, s.elements.value? o = some w) :
    Ensures (redispatch x delta) (l, s) fun _ st => l = st.1 ∧ Reacts (l, s) st ∧
      ∀ i ∈ l.waitingOn x, ∀ o ∈ delta, Made i o st.2 := by
  refine .bind ensures_own ?_
  rintro _ _ ⟨rfl, rfl⟩
  refine (Ensures.forM (R := fun a b => Reacts a b ∧ a.1 = b.1) (D := fun i st => ∀ o ∈ delta,
      ∀ u w, i.Means s.elements u → s.elements.value? o = some w → u.Answers st.2 w)
    (fun _ _ st => ⟨st.1.again, rfl⟩)
    (fun a b c (ab : _ ∧ a.1 = b.1) bc => ⟨ab.1.trans bc.1, ab.2.trans bc.2⟩)
    (fun i a b ab h o ho u w means hw => (h o ho u w means hw).grows ab.1.adds.toGrows)
    ⟨.refl hs hl, rfl⟩ ?_).mono ?_
  · rintro i mem ⟨_, t⟩ ⟨st, rfl⟩
    obtain ⟨u, means⟩ := hl.waiting x i mem
    have known' (o) (ho : o ∈ delta) : ∃ w, t.elements.value? o = some w :=
      (known o ho).imp fun _ => st.adds.elements.value?
    refine ensures_solve ((ensures_dispatchOn st.adds.sound (means.within st.adds.elements)
      known').mono fun _ v ⟨tv, answers⟩ => ⟨⟨.of_adds st.knows tv, rfl⟩, ?_⟩)
    intro o ho u' w means' hw
    cases means.unique means'
    exact answers o ho w (st.adds.elements.value? hw)
  · rintro _ ⟨_, t⟩ ⟨⟨st, rfl⟩, answers⟩
    refine ⟨rfl, st, fun i mem o ho u w means hw => ?_⟩
    obtain ⟨v, hv⟩ := hl.waiting x i mem
    obtain ⟨w', hw'⟩ := known o ho
    cases (hv.within st.adds.elements).unique means
    cases hw.symm.trans (st.adds.elements.value? hw')
    exact answers i mem o ho _ w hv hw'

/-! ### Recorded calls -/

/-- A recorded call is linked as the function value demands that it derives from. -/
def Linked (s : Solver) (edge : CallEdge) : Prop :=
  ∀ origin, edge.kind = .extension callTag origin → ∀ (u : Use) c m,
    s.elements.copy? s.elements.sites edge.site = some (u.context, u.site) →
    s.elements.copy? s.elements.sites origin = some (u.creationContext, u.creation) →
    s.elements.copy? s.elements.methods edge.callee = some (c, m) → u.Link s.reading s.program c m

theorem ensures_passArguments (hs : Sound .all s) {creation site : InContext .callSite}
    {c h τ : Situation} (hh : s.elements.situation? creation.context = some h)
    (hc : s.elements.situation? site.context = some c) {calleeContext : ContextId}
    (hτ : s.elements.situation? calleeContext = some τ) {d : MethodDecl} :
    Ensures (((arguments d creation created site decl).zip d.params).forM
      fun ((context, arg), param) => addVarFlow context arg calleeContext param .parameter) s
      fun _ t => Adds .all s t ∧
        ∀ pair ∈ ((Use.mk c site.entity h creation.entity).arguments decl created d).zip d.params,
          t.reading.carries pair.1 (.var τ pair.2) .parameter := by
  rw [Use.contextArguments_eq, Use.arguments_eq, List.zip_map_left, List.zip_map_left]
  refine (ensures_forM (D := fun (pair : (ContextId × VarId) × VarId) R => ∀ σ,
      s.elements.situation? pair.1.1 = some σ →
        R.carries (.var σ pair.1.2) (.var τ pair.2) .parameter)
    (fun _ _ _ le granted σ hσ => le.carries _ _ _ (granted σ hσ)) hs ?_).mono ?_
  · rintro pair mem t st
    obtain ⟨⟨⟨captured, v⟩, param⟩, -, rfl⟩ := List.mem_map.1 mem
    obtain ⟨σ, hσ⟩ : ∃ σ, s.elements.situation?
        (if captured then creation.context else site.context) = some σ := by
      cases captured
      · exact ⟨c, hc⟩
      · exact ⟨h, hh⟩
    refine (ensures_addVarFlow st.sound (st.elements.situation? hσ) (st.elements.situation? hτ)
      Solution.carries_all).mono fun _ t ⟨tu, granted⟩ => ⟨tu, fun σ' hσ' => ?_⟩
    cases hσ.symm.trans hσ'
    exact granted
  · rintro _ t ⟨st, granted⟩
    refine ⟨st, fun pair mem => ?_⟩
    obtain ⟨⟨⟨captured, v⟩, param⟩, mem', rfl⟩ := List.mem_map.1 mem
    refine granted _ (List.mem_map.2 ⟨_, mem', rfl⟩) _ ?_
    cases captured
    · exact hc
    · exact hh

theorem ensures_linkCall (hs : Sound .all s) {edge : CallEdge} :
    Ensures (linkCall edge) s fun _ t => Adds .all s t ∧ Linked t edge := by
  unfold linkCall
  split
  next tag origin hk =>
    split
    next isLambda =>
      subst isLambda
      refine .bind ensures_siteAt ?_
      rintro creation _ ⟨rfl, hcreation⟩
      refine .bind ensures_siteAt ?_
      rintro site _ ⟨rfl, hsite⟩
      refine .bind ensures_methodAt ?_
      rintro callee _ ⟨rfl, hcallee⟩
      refine .bind ensures_callSite ?_
      rintro created _ ⟨rfl, hcreated⟩
      refine .bind ensures_callSite ?_
      rintro decl _ ⟨rfl, hdecl⟩
      refine .bind ensures_methodDecl ?_
      rintro d _ ⟨rfl, hd⟩
      obtain ⟨h, hh⟩ := hs.readable.sites _ _ hcreation
      obtain ⟨c, hc⟩ := hs.readable.sites _ _ hsite
      obtain ⟨τ, hτ⟩ := hs.readable.methods _ _ hcallee
      have linked {t : Solver} (st : Adds .all s t)
          (link : (Use.mk c site.entity h creation.entity).Link t.reading s.program τ
            callee.entity) : Linked t edge := by
        intro origin' hk' ⟨c', site', h', creation'⟩ τ' m' hs' ho' hm'
        cases hk.symm.trans hk'
        cases hs'.symm.trans (st.elements.site? (Elements.copy?_eq_some_iff.2 ⟨_, hsite, hc⟩))
        cases ho'.symm.trans (st.elements.site? (Elements.copy?_eq_some_iff.2 ⟨_, hcreation, hh⟩))
        cases hm'.symm.trans (st.elements.method? (Elements.copy?_eq_some_iff.2 ⟨_, hcallee, hτ⟩))
        rw [st.program]
        exact link
      refine .bind (ensures_passArguments hs hh hc hτ) fun _ t ⟨st, passed⟩ => ?_
      have link {v : Solver} (tv : t.Grows v)
          (returns : ∀ result, decl.result = some result → d.isConstructor = false →
            ∀ value ∈ d.returns, v.reading.carries (.var τ value) (.var c result) .ret) :
          (Use.mk c site.entity h creation.entity).Link v.reading s.program τ callee.entity := by
        intro decl' created' d' hdecl' hcreated' hd'
        cases hdecl.symm.trans hdecl'
        cases hcreated.symm.trans hcreated'
        cases hd.symm.trans hd'
        exact ⟨fun pair mem => tv.reading.carries _ _ _ (passed pair mem), returns⟩
      split
      next result heq =>
        obtain ⟨hr, own⟩ := Prod.mk.inj heq
        refine (ensures_forM (D := fun value R => R.carries (.var τ value) (.var c result) .ret)
          (fun _ _ _ le => le.carries _ _ _) st.sound ?_).mono ?_
        · intro value mem v tv
          have sv := st.trans tv
          exact ensures_addVarFlow sv.sound (sv.elements.situation? hτ)
            (sv.elements.situation? hc) Solution.carries_all
        · rintro _ v ⟨tv, returned⟩
          refine ⟨st.trans tv, linked (st.trans tv) (link tv.toGrows fun result' hr' _ => ?_)⟩
          cases hr.symm.trans hr'
          exact returned
      next none =>
        refine .pure ⟨st, linked st (link (.refl t) fun result hr own => ?_)⟩
        exact absurd (Prod.ext hr own) (none result)
    next other =>
      refine .pure ⟨.refl hs, fun origin' hk' => ?_⟩
      cases hk.symm.trans hk'
      exact absurd rfl other
  next other => exact .pure ⟨.refl hs, fun origin hk => absurd hk (other _ _)⟩

end PointsTo.Lambda
