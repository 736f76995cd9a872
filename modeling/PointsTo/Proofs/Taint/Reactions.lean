import PointsTo.Proofs.Fixpoint
import PointsTo.Proofs.Reactions
import PointsTo.Proofs.Taint.Rules

/-!
What the reactions of taint tracking add, event by event, and which part of the rules they put into
effect.
-/
namespace PointsTo.Taint

open Facts Solve

variable {F : Solution} {rules : Rules} {k k' : Tracking} {s t u : Solver}

/-! ### Records -/

theorem mem_transfersFrom_add {source target v : VarId} {type : TypeId} {x : VarId × TypeId} :
    x ∈ (k.add source target type).transfersFrom v ↔
      x ∈ k.transfersFrom v ∨ v = source ∧ x = (target, type) := by
  unfold Tracking.add
  dsimp only
  split
  next old =>
    refine ⟨.inl, fun h => h.elim id ?_⟩
    rintro ⟨rfl, rfl⟩
    exact old
  next =>
    rw [Tracking.transfersFrom, Std.TreeMap.getD_insert]
    simp only [Coded.compare_eq_iff]
    split
    next same =>
      subst same
      simp [Tracking.transfersFrom]
    next other => simp [Tracking.transfersFrom, Ne.symm other]

/-- The transfers on record lead nowhere out of a set of facts. -/
def Derived (F : Solution) (p : Program) (k : Tracking) : Prop :=
  ∀ v target type, (target, type) ∈ k.transfersFrom v → F.Transfers p v target type

/-- What a reaction may do: it adds facts, and records transfers. -/
structure Reacts (F : Solution) (a b : Tracking × Solver) : Prop where
  adds : Adds F a.2 b.2
  derived : Derived F b.2.program b.1
  kept : ∀ v x, x ∈ a.1.transfersFrom v → x ∈ b.1.transfersFrom v

namespace Reacts

variable {a b c : Tracking × Solver}

/-- A reaction that leaves the records alone. -/
theorem of_adds (hk : Derived F s.program k) (st : Adds F s t) : Reacts F (k, s) (k, t) :=
  ⟨st, by rw [st.program]; exact hk, fun _ _ => id⟩

theorem refl (hs : Sound F s) (hk : Derived F s.program k) : Reacts F (k, s) (k, s) :=
  of_adds hk (.refl hs)

theorem again (h : Reacts F a b) : Reacts F b b := refl h.adds.sound h.derived

theorem trans (ab : Reacts F a b) (bc : Reacts F b c) : Reacts F a c :=
  ⟨ab.adds.trans bc.adds, bc.derived, fun v x mem => bc.kept v x (ab.kept v x mem)⟩

end Reacts

/-! ### Copies -/

/-- The tainted values among some objects have reached a variable. -/
def Copied (c : Situation) (target : VarId) (type : TypeId) (o : ContextObjectId) (s : Solver) :
    Prop :=
  ∀ w q, s.elements.value? o = some w → sourceCall? w.object = some q →
    s.Points (.var c target) (tainted q type)

theorem Copied.grows {c : Situation} {target : VarId} {type : TypeId} {o : ContextObjectId}
    (h : Copied c target type o s) (known : ∃ w, s.elements.value? o = some w) (g : s.Grows t) :
    Copied c target type o t := by
  obtain ⟨w', hw'⟩ := known
  intro w q hw hq
  cases hw.symm.trans (g.elements.value? hw')
  exact g.reading.points _ _ (h _ q hw' hq)

theorem ensures_taint (hs : Sound F s) {source : CallSiteId} {type : TypeId} :
    Ensures (taint source type) s fun o t =>
      Adds F s t ∧ t.elements.value? o = some (tainted source type) := by
  refine .bind ensures_change ?_
  rintro a _ ⟨rfl, rfl⟩
  obtain ⟨made, ha⟩ := hs.taint source type
  refine ensures_change.mono ?_
  rintro o _ ⟨rfl, rfl⟩
  obtain ⟨placed, ho⟩ := made.sound.internObject Elements.situation?_emptyId ha
  exact ⟨made.trans placed, ho⟩

variable {context : ContextId} {c : Situation} {source target : VarId} {type : TypeId}

/-- The tainted values among some objects reach a variable. -/
theorem ensures_carry (hs : Sound F s) {objects : Objects}
    (hc : s.elements.situation? context = some c)
    (demand : ∀ o ∈ objects, ∃ w, s.elements.value? o = some w ∧ ∀ q,
      sourceCall? w.object = some q →
        (F.demands s.program).points (.var c target) (tainted q type)) :
    Ensures (carry objects context target type) s fun _ t => Adds F s t ∧
      ∀ o ∈ objects, Copied c target type o t := by
  refine .bind (Ensures.mapM_forall₂ (R := fun a b => s = a ∧ a = b)
    (D := fun o origin _ => ∀ w, s.elements.value? o = some w → origin = sourceCall? w.object)
    (fun _ _ ⟨sa, ab⟩ => ⟨sa.trans ab, rfl⟩) (fun _ _ _ ⟨sa, ab⟩ ⟨_, bc⟩ => ⟨sa, ab.trans bc⟩)
    (fun _ _ _ _ _ => id) ⟨rfl, rfl⟩ ?_) ?_
  · rintro o - _ ⟨-, rfl⟩
    refine .bind ensures_objectAt ?_
    rintro a _ ⟨rfl, ha⟩
    refine .pure ⟨⟨rfl, rfl⟩, fun w hw => ?_⟩
    cases ha.symm.trans (Elements.object?_of_value? hw)
    rfl
  rintro origins _ ⟨⟨-, rfl⟩, each⟩
  -- an origin is the source call of one of the objects, and vice versa
  have demanded (q) (mem : q ∈ origins.filterMap id) :
      (F.demands s.program).points (.var c target) (tainted q type) := by
    obtain ⟨_, horigin, rfl⟩ := List.mem_filterMap.1 mem
    obtain ⟨o, ho, of⟩ := exists_mem_left each (some q) horigin
    obtain ⟨w, hw, granted⟩ := demand o (HybridSet.mem_toList.1 ho)
    exact granted q (of w hw).symm
  have found (o) (ho : o ∈ objects) (w q) (hw : s.elements.value? o = some w)
      (hq : sourceCall? w.object = some q) : q ∈ origins.filterMap id := by
    obtain ⟨origin, horigin, of⟩ := exists_mem_right each o (HybridSet.mem_toList.2 ho)
    exact List.mem_filterMap.2 ⟨origin, horigin, (of w hw).trans hq⟩
  refine .bind (Ensures.mapM_forall₂ (R := Adds F)
    (D := fun q o t => t.elements.value? o = some (tainted q type)) (fun _ _ st => .refl st.sound)
    (fun _ _ _ => .trans) (fun _ _ _ _ st => st.elements.value?) (.refl hs) ?_) ?_
  · intro q _ t st
    exact ensures_taint st.sound
  rintro copies t ⟨st, made⟩
  refine ensures_modify.mono ?_
  rintro _ _ rfl
  obtain ⟨adds, points⟩ := st.sound.addObjectsIn (v := target)
    (st.elements.situation? hc) fun o (ho : o ∈ HybridSet.ofList copies) => by
      obtain ⟨q, hq, of⟩ := exists_mem_left made o (HybridSet.mem_ofList.1 ho)
      rw [st.program]
      exact ⟨_, of, demanded q hq⟩
  refine ⟨st.trans adds, fun o ho w q hw hq => ?_⟩
  obtain ⟨v, hv, granted⟩ := demand o ho
  cases ((st.trans adds).elements.value? hv).symm.trans hw
  obtain ⟨copy, hcopy, of⟩ := exists_mem_right made q (found o ho _ q hv hq)
  exact points copy (HybridSet.mem_ofList.2 hcopy) _ of

/-! ### Following transfers -/

/-- An object that a variable has passed on is still announced. -/
def Announces (s : Solver) (n : NodeId) (o : ContextObjectId) : Prop :=
  ∃ x, s.flows.pointer? n = some (.var x) ∧
    ∃ delta : Objects, o ∈ delta ∧ Event.objects x delta ∈ s.events.toList

/-- The tainted values that a variable has passed on have reached another one, unless they are still
announced. -/
def Follows (c : Situation) (source target : VarId) (type : TypeId) (s : Solver) : Prop :=
  ∀ n o, s.place? n = some (.var c source) → o ∈ s.points.propagatedOf n →
    Announces s n o ∨ Copied c target type o s

theorem pointer?_of_place? {n : NodeId} {c : Situation} {v : VarId}
    (hn : s.place? n = some (.var c v)) : ∃ x, s.flows.pointer? n = some (.var x) ∧
      s.elements.copy? s.elements.vars x = some (c, v) := by
  obtain ⟨p, hp, hP⟩ := Option.bind_eq_some_iff.1 hn
  cases p with
  | var x =>
    obtain ⟨pair, hx, same⟩ := Option.map_eq_some_iff.1 hP
    cases same
    exact ⟨x, hp, hx⟩
  | field => simp [Elements.place?] at hP
  | array => simp [Elements.place?] at hP
  | static => cases hP

theorem mem_objectsIn {context : ContextId} {c : Situation} {v : VarId} {o : ContextObjectId}
    (hc : s.elements.situation? context = some c) :
    o ∈ s.objectsIn context v ↔ ∃ n, s.place? n = some (.var c v) ∧ o ∈ s.points.all n := by
  unfold Solver.objectsIn
  constructor
  · intro mem
    split at mem
    next x hx =>
      obtain ⟨n, hn, mem⟩ := Solver.mem_pointsTo_iff.1 mem
      have hx := Elements.copy?_eq_some_iff.2 ⟨context, Table.get?_of_find? hx, hc⟩
      exact ⟨n, by rw [Solver.place?, hn]; exact Elements.place?_var hx, mem⟩
    next => exact absurd mem HybridSet.not_mem_empty
  · rintro ⟨n, hn, mem⟩
    obtain ⟨x, hp, hx⟩ := pointer?_of_place? hn
    obtain ⟨d, hx, hd⟩ := Elements.copy?_eq_some_iff.1 hx
    cases Elements.eq_of_situation? hc hd
    rw [show s.elements.vars.find? context v = some x from Table.find?_of_get? hx]
    exact Solver.mem_pointsTo_iff.2 ⟨n, hp, mem⟩

/-- Transfers are followed for as long as what is no longer announced has been copied. -/
theorem Follows.mono {c : Situation} {source target : VarId} {type : TypeId}
    (h : Follows c source target type s) (hs : Sound F s) (g : s.Grows t) {events : Queue Event}
    (told : { s with events }.Told t)
    (announced : ∀ x delta, Event.objects x delta ∈ s.events.toList →
      s.elements.copy? s.elements.vars x = some (c, source) →
        Event.objects x delta ∈ t.events.toList ∨ ∀ o ∈ delta, Copied c target type o t) :
    Follows c source target type t := by
  intro n o hn ho
  obtain ⟨x, hp, -⟩ := pointer?_of_place? hn
  obtain old | new := told.objects n o ho
  · obtain ⟨P, w, hP, hw, -⟩ := hs.points n o (PendingStore.mem_all.2 (.inr old))
    cases hn.symm.trans (g.place? hP)
    obtain ⟨y, hq, delta, mem, announces⟩ | copied := h n o hP old
    · cases hp.symm.trans (g.nodes n _ hq)
      obtain ⟨y, hq', hx⟩ := pointer?_of_place? hP
      cases hq.symm.trans hq'
      exact (announced _ delta announces hx).imp (fun kept => ⟨_, hp, delta, mem, kept⟩)
        fun copied => copied o mem
    · exact .inr (copied.grows ⟨w, hw⟩ g)
  · exact .inl ⟨x, hp, new x hp⟩

/-! ### Reactions to calls -/

/-- The rules are in effect at a call: the results of sources are tainted, and the transfers are on
record and followed. -/
structure Engaged (rules : Rules) (c : Situation) (site : CallSiteId) (decl : CallSite)
    (callee : MethodId) (k : Tracking) (s : Solver) : Prop where
  sources : ∀ result, decl.result = some result → ∀ type ∈ rules.sourceTypes callee,
    s.Points (.var c result) (tainted site type)
  transfers : ∀ rule ∈ rules.transfersOf callee, ∀ source target,
    varAt? decl rule.source = some source → varAt? decl rule.target = some target →
      (target, rule.type) ∈ k.transfersFrom source ∧ Follows c source target rule.type s

/-- The tainted values of a source reach the result of a call. -/
theorem ensures_taintResult (hs : Sound F s) (hk : Derived F s.program k) {context : ContextId}
    {c : Situation} {result : VarId} {site : CallSiteId} {types : List TypeId}
    (hc : s.elements.situation? context = some c)
    (demand : ∀ type ∈ types, (F.demands s.program).points (.var c result) (tainted site type)) :
    Ensures (types.forM fun type => Reaction.solve do
      let o ← Solve.change (·.mock taintedValue site type none)
      modify (·.addObjectIn context result ContextTable.emptyId o)) (k, s) fun _ st =>
        Reacts F (k, s) st ∧ ∀ type ∈ types, st.2.Points (.var c result) (tainted site type) := by
  refine Ensures.forM (R := Reacts F)
    (D := fun type st => st.2.Points (.var c result) (tainted site type))
    (fun _ _ => Reacts.again) (fun _ _ _ => Reacts.trans)
    (fun type a b ab => ab.adds.reading.points _ _) (.refl hs hk) ?_
  rintro type mem ⟨_, t⟩ st
  refine ensures_solve (.bind ensures_change ?_)
  rintro o _ ⟨rfl, rfl⟩
  obtain ⟨made, ho⟩ := st.adds.sound.taint site type
  refine ensures_modify.mono ?_
  rintro _ _ rfl
  have su := st.adds.trans made
  obtain ⟨placed, points⟩ := made.sound.addObjectIn (v := result) (su.elements.situation? hc)
    Elements.situation?_emptyId ho (by rw [su.program]; exact demand type mem)
  exact ⟨.of_adds st.derived (made.trans placed), points⟩

/-- Recording a transfer. -/
theorem reacts_add (hs : Sound F s) (hk : Derived F s.program k) {source target : VarId}
    {type : TypeId} (derived : F.Transfers s.program source target type) :
    Reacts F (k, s) (k.add source target type, s) where
  adds := .refl hs
  derived v target' type' mem := by
    obtain old | ⟨rfl, same⟩ := mem_transfersFrom_add.1 mem
    · exact hk v target' type' old
    · cases same
      exact derived
  kept v x mem := mem_transfersFrom_add.2 (.inl mem)

/-- Additions keep transfers followed. -/
theorem Follows.adds {c : Situation} {source target : VarId} {type : TypeId}
    (h : Follows c source target type s) (hs : Sound F s) (st : Adds F s t) :
    Follows c source target type t :=
  h.mono hs st.toGrows st.still.told fun _ _ mem _ => .inl (st.announced.subset mem)

/-- The transfers of a call are recorded, and what is already there is carried. -/
theorem ensures_transfers (hs : Sound F s) (hk : Derived F s.program k) {context : ContextId}
    {c : Situation} {decl : CallSite} {list : List (TransferRule MethodId TypeId)}
    (hc : s.elements.situation? context = some c)
    (demand : ∀ rule ∈ list, ∀ source target, varAt? decl rule.source = some source →
      varAt? decl rule.target = some target → F.Transfers s.program source target rule.type) :
    Ensures (list.forM fun rule => do
      if let (some source, some target) := (varAt? decl rule.source, varAt? decl rule.target) then
        Reaction.modifyOwn (·.add source target rule.type)
        let objects := (← Reaction.solver).objectsIn context source
        carry objects context target rule.type : Reaction Tracking Unit) (k, s) fun _ st =>
      Reacts F (k, s) st ∧ ∀ rule ∈ list, ∀ source target, varAt? decl rule.source = some source →
        varAt? decl rule.target = some target →
          (target, rule.type) ∈ st.1.transfersFrom source ∧
            Follows c source target rule.type st.2 := by
  refine (Ensures.forM (R := fun (a b : Tracking × Solver) => Sound F a.2 ∧ Reacts F a b)
    (D := fun (rule : TransferRule MethodId TypeId) st => ∀ source target,
      varAt? decl rule.source = some source → varAt? decl rule.target = some target →
        (target, rule.type) ∈ st.1.transfersFrom source ∧
          Follows c source target rule.type st.2)
    (fun _ _ ab => ⟨ab.2.adds.sound, ab.2.again⟩) (fun _ _ _ ab bc => ⟨ab.1, ab.2.trans bc.2⟩)
    (fun rule a b ab h source target hf ht => ?_) ⟨hs, .refl hs hk⟩ ?_).mono
      fun _ _ h => ⟨h.1.2, h.2⟩
  · exact (h source target hf ht).imp (ab.2.kept source _) (·.adds ab.1 ab.2.adds)
  rintro rule mem ⟨k', t⟩ ⟨-, st⟩
  have ht := st.adds.sound
  split
  next source target positions =>
    obtain ⟨hf, htarget⟩ := Prod.mk.inj positions
    have derived := demand rule mem source target hf htarget
    rw [← st.adds.program] at derived
    have added := reacts_add ht st.derived derived
    refine .bind (ensures_modifyOwn (Q := fun _ st => (k'.add source target rule.type, t) = st) rfl) ?_
    rintro _ _ rfl
    refine .bind ensures_solver ?_
    rintro _ _ ⟨rfl, rfl⟩
    have hc' := st.adds.elements.situation? hc
    refine ensures_solve ((ensures_carry ht hc' fun o ho => ?_).mono fun _ u ⟨tu, copied⟩ => ?_)
    · obtain ⟨n, hn, mem⟩ := (mem_objectsIn hc').1 ho
      obtain ⟨P, w, hP, hw, granted⟩ := ht.points n o mem
      cases hn.symm.trans hP
      exact ⟨w, hw, fun q hq => derived c w q granted hq⟩
    · refine ⟨⟨ht, added.trans (.of_adds added.derived tu)⟩, fun source' target' hf' ht' => ?_⟩
      cases hf.symm.trans hf'
      cases htarget.symm.trans ht'
      refine ⟨mem_transfersFrom_add.2 (.inr ⟨rfl, rfl⟩), fun n o hn ho => .inr ?_⟩
      -- nothing has been passed on but what was there before
      rw [tu.propagated] at ho
      obtain ⟨P, w, hP, hw, -⟩ := ht.points n o (PendingStore.mem_all.2 (.inr ho))
      cases hn.symm.trans (tu.place? hP)
      exact copied o ((mem_objectsIn hc').2 ⟨n, hP, PendingStore.mem_all.2 (.inr ho)⟩)
  next none =>
    exact .pure ⟨⟨ht, st.again⟩, fun source target hf ht => absurd (by rw [hf, ht]) (none source target)⟩

/-- The rules of a call are put into effect. -/
theorem ensures_onCall (hs : Sound F s) (hk : Derived F s.program k)
    (taints : F.Taints s.program rules) {edge : CallEdge} (he : s.Attests F (.call edge)) :
    Ensures (onCall rules edge) (k, s) fun _ st => Reacts F (k, s) st ∧
      ∀ c site c' m, s.elements.copy? s.elements.sites edge.site = some (c, site) →
        s.elements.copy? s.elements.methods edge.callee = some (c', m) →
          ∃ decl, s.program.callSites[site]? = some decl ∧
            Engaged rules c site decl m st.1 st.2 := by
  obtain ⟨via, c, site, c', m, -, hsite, hm, granted⟩ := he
  obtain ⟨context, hsite', hc⟩ := Elements.copy?_eq_some_iff.1 hsite
  obtain ⟨calleeContext, hm', -⟩ := Elements.copy?_eq_some_iff.1 hm
  refine .bind (ensures_lookup ensures_siteAt) ?_
  rintro pair _ ⟨rfl, hpair⟩
  cases hsite'.symm.trans hpair
  refine .bind (ensures_lookup ensures_methodAt) ?_
  rintro pair _ ⟨rfl, hpair⟩
  cases hm'.symm.trans hpair
  refine .bind (ensures_lookup ensures_callSite) ?_
  rintro decl _ ⟨rfl, hdecl⟩
  -- after the sources, the transfers
  have rest {st : Tracking × Solver} (reacts : Reacts F (k, s) st)
      (sources : ∀ result, decl.result = some result → ∀ type ∈ rules.sourceTypes m,
        st.2.Points (.var c result) (tainted site type)) :
      Ensures ((rules.transfersOf m).forM fun rule => do
        if let (some source, some target) := (varAt? decl rule.source, varAt? decl rule.target) then
          Reaction.modifyOwn (·.add source target rule.type)
          let objects := (← Reaction.solver).objectsIn context source
          carry objects context target rule.type : Reaction Tracking Unit) st fun _ st' =>
        Reacts F (k, s) st' ∧ ∀ c₁ site₁ c₁' m₁,
          s.elements.copy? s.elements.sites edge.site = some (c₁, site₁) →
          s.elements.copy? s.elements.methods edge.callee = some (c₁', m₁) →
            ∃ decl, s.program.callSites[site₁]? = some decl ∧
              Engaged rules c₁ site₁ decl m₁ st'.1 st'.2 := by
    refine (ensures_transfers reacts.adds.sound reacts.derived
      (reacts.adds.elements.situation? hc) fun rule mem source target hf ht => ?_).mono ?_
    · rw [reacts.adds.program]
      exact taints.transfers via c site c' m granted decl hdecl rule mem source target hf ht
    rintro _ st' ⟨reacts', transfers⟩
    refine ⟨reacts.trans reacts', fun c₁ site₁ c₁' m₁ hs₁ hm₁ => ⟨decl, ?_⟩⟩
    cases hsite.symm.trans hs₁
    cases hm.symm.trans hm₁
    exact ⟨hdecl, fun result hr type mem => reacts'.adds.reading.points _ _ (sources result hr type mem),
      transfers⟩
  split
  next result hr =>
    refine .bind (ensures_taintResult hs hk hc fun type mem =>
      taints.sources via c site c' m granted decl hdecl result hr type mem) ?_
    rintro _ st ⟨reacts, points⟩
    refine rest reacts fun result' hr' => ?_
    cases hr.symm.trans hr'
    exact points
  next none => exact rest (.refl hs hk) fun result hr => absurd hr (none result)

/-- New objects are carried along the transfers on record. -/
theorem ensures_onObjects (hs : Sound F s) (hk : Derived F s.program k) {x : ContextVarId}
    {delta : Objects} (he : s.Attests F (.objects x delta)) :
    Ensures (onObjects x delta) (k, s) fun _ st => Reacts F (k, s) st ∧
      ∀ c v, s.elements.copy? s.elements.vars x = some (c, v) →
        ∀ target type, (target, type) ∈ k.transfersFrom v →
          ∀ o ∈ delta, Copied c target type o st.2 := by
  obtain ⟨c, v, hx, known⟩ := he
  obtain ⟨context, hx', hc⟩ := Elements.copy?_eq_some_iff.1 hx
  refine .bind (ensures_lookup ensures_varAt) ?_
  rintro pair _ ⟨rfl, hpair⟩
  cases hx'.symm.trans hpair
  refine .bind ensures_own ?_
  rintro _ _ ⟨rfl, rfl⟩
  have value {o : ContextObjectId} (ho : o ∈ delta) : ∃ w, s.elements.value? o = some w :=
    (known o ho).imp fun _ => And.left
  refine (Ensures.forM (R := Reacts F)
    (D := fun (pair : VarId × TypeId) st => Adds F s st.2 ∧
      ∀ o ∈ delta, Copied c pair.1 pair.2 o st.2)
    (fun _ _ => Reacts.again) (fun _ _ _ => Reacts.trans)
    (fun pair a b ab h => ⟨h.1.trans ab.adds, fun o ho =>
      (h.2 o ho).grows ((value ho).imp fun _ => h.1.elements.value?) ab.adds.toGrows⟩)
    (.refl hs hk) ?_).mono ?_
  · rintro ⟨target, type⟩ mem ⟨k', t⟩ st
    have derived := hk v target type mem
    rw [← st.adds.program] at derived
    refine ensures_solve ((ensures_carry st.adds.sound (st.adds.elements.situation? hc)
      fun o ho => ?_).mono fun _ u ⟨tu, copied⟩ => ?_)
    · obtain ⟨w, hw, granted⟩ := known o ho
      rw [← st.adds.program] at granted
      exact ⟨w, st.adds.elements.value? hw, fun q hq => derived c w q granted hq⟩
    · exact ⟨.of_adds st.derived tu, st.adds.trans tu, copied⟩
  · rintro _ st ⟨reacts, done⟩
    refine ⟨reacts, fun c' v' hx' target type mem => ?_⟩
    cases hx.symm.trans hx'
    exact (done (target, type) mem).2

end PointsTo.Taint
