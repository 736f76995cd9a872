import PointsTo.Proofs.Safety.Advancing

/-!
The pieces of work of the solver keep a state in order, and none of them fails for an internal
reason.
-/
namespace PointsTo

open Facts

variable {p : Program} {sel : Selector} {promised : Option (ContextId × MethodId)} {s t : Solver}
  {c d : ContextId} {m : MethodId}

theorem Grounded.knows (h : Grounded p sel promised s) (hm : s.Reached c m) :
    s.elements.Knows p.toCatalog sel.limit c := by
  obtain ⟨cm, hcm, -⟩ := hm
  exact (h.elements.methods cm _ hcm).1

/-- Objects may flow into the variables of a method that is reached. -/
theorem Grounded.admits (h : Grounded p sel promised s) (hm : s.Reached c m) {v : VarId}
    (owns : p.Owns m v) : s.Admits p.toCatalog sel.limit promised c v := ⟨h.knows hm, m, owns, hm.alive⟩

/-- While no call is queued, whatever is alive has been reached. -/
theorem reached_of_alive (quiet : s.callQueue.toList = []) (alive : s.Alive none c m) :
    s.Reached c m := by
  obtain ⟨⟨⟩⟩ | ⟨cm, hcm, reached | ⟨e, he, -⟩⟩ := alive
  · exact ⟨cm, hcm, reached⟩
  · rw [quiet] at he
    cases he

/-- The method of a variable that has objects is reached in the variable's context while no call is
queued. -/
theorem Grounded.reached_of_mem (hs : Grounded p sel none s) (quiet : s.callQueue.toList = [])
    {n : NodeId} {x : ContextVarId} {o : ContextObjectId} (ho : o ∈ s.points.all n)
    (hn : s.flows.pointer? n = some (.var x)) :
    ∃ c v m, s.elements.vars.get? x = some ⟨c, v⟩ ∧ p.Owns m v ∧ s.Reached c m := by
  obtain ⟨⟨q, hq, can⟩, -⟩ := hs.points n o ho
  cases hq.symm.trans hn
  obtain ⟨c, v, hx, m, owns, alive⟩ := can
  exact ⟨c, v, m, hx, owns, reached_of_alive quiet alive⟩

/-- What becomes of a state from one transition to the next. -/
structure Moves (p : Program) (sel : Selector) (s t : Solver) : Prop extends s.Keeps t where
  grounded : Grounded p sel none t

namespace Moves

theorem refl (h : Grounded p sel none s) : Moves p sel s s := ⟨.refl s, h⟩

theorem trans {u : Solver} (st : Moves p sel s t) (tu : Moves p sel t u) : Moves p sel s u :=
  ⟨st.toKeeps.trans tu.toKeeps, tu.grounded⟩

end Moves

theorem Advances.moves (h : Advances p sel none s t) : Moves p sel s t :=
  ⟨h.toKeeps, h.grounded⟩

namespace Solve

/-! ### Methods -/

section Reached

variable {site : CallSiteId} {decl : CallSite} (hd : p.callSites[site]? = some decl)
  (reached : s.Reached c decl.container)
include hd reached

theorem advancing_processNamedCall (target : MethodRef) {kind : CallEdgeKind}
    (core : ∀ tag origin, kind ≠ .extension tag origin) :
    Advancing p sel none (processNamedCall c site target kind) s fun _ _ => True := fun hs => by
  refine Advancing.afterGet ?_ hs
  split
  next callee resolved =>
    rw [hs.program] at resolved
    obtain ⟨d, hcallee⟩ := hs.wellFormed.resolve resolved
    refine .bind (advancing_internSite (hs.knows reached) (Roster.lt_size hd)) fun cs t st hcs => ?_
    refine .bind (advancing_calleeContext hcs) fun cc u tu hcc => ?_
    refine .bind (advancing_internMethod hcc (Roster.lt_size hcallee)) fun cm v uv hcm => ?_
    have tv := tu.trans uv
    have placed : v.Placed p.toCatalog ⟨cs, cm, kind⟩ :=
      ⟨⟨c, site, decl, tv.elements.sites _ _ hcs, hd, reached.kept (st.trans tv).toKeeps⟩, ⟨_, hcm⟩,
        fun tag origin eq => absurd eq (core tag origin)⟩
    exact (advancing_queueCall placed hcm).mono fun _ _ _ _ => trivial
  next =>
    obtain ⟨text, htext⟩ := hs.siteText? hd
    exact .after (safe_siteText htext) (advancing_warn _)

theorem advancing_processDynamicCall (call : DynamicCall) :
    Advancing p sel none (processDynamicCall c site decl call) s fun _ _ => True := fun hs => by
  have sealedSite := hs.wellFormed.complete.sites site decl hd
  unfold processDynamicCall
  split
  · split
    next _ result type same =>
      obtain ⟨hresult, htype⟩ := Prod.mk.inj same
      have owns : p.Owns decl.container result :=
        hs.wellFormed.owned.sites site decl hd result (by simp [CallSite.vars, hresult])
      have allowed : stringConcatenation ∈ mockDescriptions := by simp [mockDescriptions]
      refine Advancing.bind (advancing_mock allowed (Roster.lt_size hd)
        (sealedSite.target.result type htype) ?_) (fun o t st ho => ?_) hs
      · rintro _ ⟨⟩
        exact sealedSite.container
      · exact advancing_addObjectIn ((hs.admits reached owns).later st)
          Elements.knows_emptyId ho
    next => exact Advancing.pure trivial hs
  · exact advancing_announce ⟨⟨decl, hd, reached⟩, fun _ none => by cases none⟩ hs

theorem advancing_processCall :
    Advancing p sel none (processCall c site) s fun _ _ => True := fun hs => by
  refine Advancing.after (safe_callSite (d := decl) (by rw [hs.program]; exact hd)) ?_ hs
  split
  · exact advancing_processNamedCall hd reached _ nofun
  · exact advancing_processNamedCall hd reached _ nofun
  · exact .pure trivial
  · exact .pure trivial
  · exact advancing_processDynamicCall hd reached _

end Reached

theorem advancing_processStatement {cm : ContextMethodId} {decl : MethodDecl} {i : Nat}
    {statement : Statement} (hcm : s.elements.methods.get? cm = some ⟨c, m⟩)
    (reached : s.Reached c m) (hd : p.methods[m]? = some decl)
    (hi : decl.body[i]? = some statement) :
    Advancing p sel none (processStatement cm ⟨c, m⟩ i statement) s fun _ _ => True := fun hs => by
  have mem : statement ∈ decl.body := Array.mem_of_getElem? hi
  have typed := (hs.wellFormed.complete.methods m decl hd).body statement mem
  have scope := hs.wellFormed.owned.methods m decl hd
  have owns (v : VarId) (hv : v ∈ Builder.mentioned statement) : p.Owns m v :=
    scope.body statement mem v hv
  have admits (v : VarId) (hv : v ∈ Builder.mentioned statement) :
      s.Admits p.toCatalog sel.limit none c v := hs.admits reached (owns v hv)
  have hc := hs.knows reached
  cases statement with
  | new lhs type =>
    have lt : i < decl.body.size := (Array.getElem?_eq_some_iff.1 hi).1
    refine Advancing.bind (advancing_allocate hd lt (typed.types type (by
      simp [Statement.types]))) (fun o t st ho => ?_) hs
    refine .bind (advancing_heapContext (st.elements.methods _ _ hcm)) fun hc t' tu known => ?_
    exact advancing_addObjectIn ((admits lhs (by simp [Builder.mentioned])).later (st.trans tu))
      known (ho.imp (tu.elements.heap o))
  | assign lhs rhs =>
    exact advancing_addVarFlow hc (owns rhs (by simp [Builder.mentioned])).lt_size
      (admits lhs (by simp [Builder.mentioned])) (fun _ cast => by cases cast) hs
  | cast lhs rhs type =>
    refine advancing_addVarFlow hc (owns rhs (by simp [Builder.mentioned])).lt_size
      (admits lhs (by simp [Builder.mentioned])) ?_ hs
    rintro _ ⟨⟩
    exact typed.types type (by simp [Statement.types])
  | loadStatic lhs field =>
    have lhsOk := admits lhs (by simp [Builder.mentioned])
    refine Advancing.bind (advancing_internVar hc (owns lhs (by
      simp [Builder.mentioned])).lt_size) (fun x t st hx => ?_) hs
    exact advancing_addFlow (show field.index < _ from typed.field _ _ rfl)
      ⟨c, lhs, hx, (lhsOk.later st).2⟩ fun _ cast => by cases cast
  | storeStatic field rhs =>
    refine Advancing.bind (advancing_internVar hc (owns rhs (by
      simp [Builder.mentioned])).lt_size) (fun x t st hx => ?_) hs
    exact advancing_addFlow (Exists.intro _ hx) (show field.index < _ from typed.field _ _ rfl)
      fun _ cast => by cases cast
  | invoke site =>
    obtain ⟨callDecl, hsite, rfl⟩ := scope.invokes site mem
    exact advancing_processCall hsite reached hs
  | loadField | storeField | loadArray | storeArray | ret => exact Advancing.pure trivial hs

theorem advancing_processMethod {cm : ContextMethodId}
    (hcm : s.elements.methods.get? cm = some ⟨c, m⟩) (reached : s.Reached c m) :
    Advancing p sel none (processMethod cm) s fun _ _ => True := fun hs => by
  obtain ⟨decl, hd⟩ := Roster.exists_getElem? (hs.elements.methods cm _ hcm).2
  refine Advancing.after (safe_methodAt hcm) ?_ hs
  refine .after (safe_methodDecl (d := decl) (by rw [hs.program]; exact hd)) ?_
  refine .forM fun (statement, i) mem t st => ?_
  refine advancing_processStatement (st.elements.methods _ _ hcm) (reached.kept st.toKeeps) hd ?_
  rw [← Array.getElem?_toList]
  exact List.mem_zipIdx_iff_getElem?.1 mem

/-- A method may be entered once it is reached. -/
theorem advancing_enter {cm : ContextMethodId} (hcm : s.elements.methods.get? cm = some ⟨c, m⟩)
    (reached : s.calls.Reaches cm) :
    Advancing p sel none (enter cm) s fun _ _ => True := fun hs => by
  refine Advancing.after (safe_methodAt hcm) (.afterGet ?_) hs
  have rest {t : Solver} (st : s.Later t) : Advancing p sel none (do
      modify (·.announce (.contextMethod cm))
      processMethod cm : Solve Unit) t fun _ _ => True := by
    refine .bind (advancing_announce ⟨⟨_, st.elements.methods _ _ hcm⟩, st.reached cm reached⟩)
      fun _ u tu _ => ?_
    have su := st.trans tu
    exact advancing_processMethod (su.elements.methods _ _ hcm)
      ⟨cm, su.elements.methods _ _ hcm, su.reached cm reached⟩
  split
  · refine .bind (.modify (Q := fun _ _ => True) (fun hs => hs.meet) trivial) fun _ t st _ => ?_
    exact .bind (advancing_announce (hs.elements.methods cm _ hcm).2) fun _ u tu _ =>
      rest (st.trans tu)
  · exact rest (.refl s)

theorem advancing_reach {cm : ContextMethodId} (hcm : s.elements.methods.get? cm = some ⟨c, m⟩) :
    Advancing p sel none (reach cm) s fun _ _ => True := by
  have st : s.Later { s with calls := (s.calls.reach cm).2 } :=
    ⟨⟨.refl _, .refl _, fun x hx => CallGraph.reaches_reach.2 (.inl hx)⟩, fun _ => id⟩
  refine .bind (.change (Q := fun _ t => t = { s with calls := (s.calls.reach cm).2 })
    fun hs => ⟨?_, rfl⟩) ?_
  · refine hs.gain st ⟨rfl, rfl, hs.elements, .inl, .inl, .inl, id, .inl, ?_, ?_, .inl⟩
    · intro call hcall
      rw [CallGraph.Records, CallGraph.calls_reach] at hcall
      exact .inl hcall
    · intro x hx
      refine (CallGraph.reaches_reach.1 hx).imp_right ?_
      rintro rfl
      exact ⟨_, hcm⟩
  · rintro fresh _ - rfl
    split
    · exact advancing_enter hcm (CallGraph.reaches_reach.2 (.inr rfl))
    · exact .pure trivial

theorem advancing_reachEntries :
    Advancing p sel none reachEntries s fun _ _ => True := fun hs => by
  refine Advancing.after (a := p.toCatalog) (safe_catalog.mono ?_) ?_ hs
  · rintro _ _ ⟨rfl, rfl⟩
    exact ⟨rfl, congrArg Program.toCatalog hs.program⟩
  · refine .forM fun entry mem t st => ?_
    exact .bind (advancing_internMethod Elements.knows_emptyId
      (hs.wellFormed.complete.entries entry mem)) fun cm u tu hcm => advancing_reach hcm

/-! ### Calls -/

theorem advancing_linkCall {site : CallSiteId} {decl : CallSite} (kind : CallEdgeKind)
    (hsite : p.callSites[site]? = some decl) (caller : s.Reached c decl.container)
    (callee : s.Reached d m) :
    Advancing p sel none (linkCall ⟨c, site⟩ ⟨d, m⟩ kind) s fun _ _ => True := fun hs => by
  obtain ⟨cm, hcm, -⟩ := id callee
  obtain ⟨target, htarget⟩ := Roster.exists_getElem? (hs.elements.methods cm _ hcm).2
  have scope := hs.wellFormed.owned.methods m target htarget
  have owns (v : VarId) (hv : v ∈ decl.vars) : p.Owns decl.container v :=
    hs.wellFormed.owned.sites site decl hsite v hv
  have hc := hs.knows caller
  have hd := hs.knows callee
  refine Advancing.after (safe_callSite (d := decl) (by rw [hs.program]; exact hsite)) ?_ hs
  refine .after (safe_methodDecl (d := target) (by rw [hs.program]; exact htarget)) ?_
  refine .bind (.forM fun pair mem t st => ?_) fun _ t st _ => ?_
  · obtain ⟨harg, hparam⟩ := List.of_mem_zip mem
    exact advancing_addVarFlow (hc.within st.elements)
      (owns pair.1 (by simp [CallSite.vars, harg])).lt_size
      ((hs.admits callee (scope.params pair.2 hparam)).later st) fun _ cast => by cases cast
  -- the receiver is bound last, whether or not there is a result
  cases hresult : decl.result
  case' none => have su := st
  case' some result =>
    refine .bind (.forM fun value mem u tu => ?_) fun _ u tu _ => ?_
    · have su := st.trans tu
      exact advancing_addVarFlow (hd.within su.elements) (scope.returns value mem).lt_size
        ((hs.admits caller (owns result (by simp [CallSite.vars, hresult]))).later su)
        fun _ cast => by cases cast
    have su := st.trans tu
  all_goals
    dsimp only
    split
    · split
      next _ base receiver same =>
        obtain ⟨hbase, hreceiver⟩ := Prod.mk.inj same
        exact advancing_addVarFlow (hc.within su.elements)
          (owns base (by simp [CallSite.vars, hbase])).lt_size
          ((hs.admits callee (scope.receiver receiver hreceiver)).later su)
          fun _ cast => by cases cast
      next => exact .pure trivial
    · exact .pure trivial

/-- A recorded call leaves no promise open: its callee is reached. -/
theorem grounded_addCall {e : CallEdge} {cm : ContextMethodId}
    (hs : Grounded p sel (some (d, m)) s) (placed : s.Placed p.toCatalog e)
    (hcm : ∃ pair, s.elements.methods.get? cm = some pair)
    (hcallee : s.elements.methods.get? e.callee = some ⟨d, m⟩)
    (fresh : ¬ ∃ call, s.calls.Records call ∧ call.ends = (e.site, e.callee)) :
    let t := { s with calls := (s.calls.add cm e).2 }
    s.Later t ∧ Grounded p sel none t ∧ t.Settled p.toCatalog e := by
  obtain ⟨old, -⟩ | ⟨-, -, -, -, reaches, records⟩ := s.calls.add_cases cm e
  · exact absurd old fresh
  have st : s.Later { s with calls := (s.calls.add cm e).2 } :=
    ⟨⟨.refl _, .refl _, fun x hx => (reaches x).2 (.inl hx)⟩, fun _ => id⟩
  have settled : Solver.Settled { s with calls := (s.calls.add cm e).2 } p.toCatalog e :=
    ⟨placed.kept st.toKeeps, (reaches _).2 (.inr (.inr rfl))⟩
  refine ⟨st, hs.become st.toKeeps (fun c' m' hm => ?_)
    ⟨rfl, rfl, hs.elements, .inl, .inl, .inl, id, .inl, ?_, ?_, .inl⟩, settled⟩
  · obtain same | alive := hm
    · cases same
      exact .inr ⟨e.callee, hcallee, .inl settled.reached⟩
    · exact Solver.Alive.later st (.inr alive)
  · intro call hcall
    refine ((records call).1 hcall).imp_right ?_
    rintro rfl
    exact settled
  · intro x hx
    refine ((reaches x).1 hx).imp_right ?_
    rintro (rfl | rfl)
    · exact hcm
    · exact ⟨_, hcallee⟩

/-- What is left to do for a call that has just been recorded. -/
theorem advancing_recorded (isNew : Bool) {e : CallEdge} {site : CallSiteId} {decl : CallSite}
    (hdecl : p.callSites[site]? = some decl) (caller : s.Reached c decl.container)
    (hcallee : s.elements.methods.get? e.callee = some ⟨d, m⟩)
    (settled : s.Settled p.toCatalog e) :
    Advancing p sel none (do
      if isNew then enter e.callee
      modify (·.announce (.call e))
      match e.kind with
      | .extension .. => return
      | kind => linkCall ⟨c, site⟩ (← methodAt e.callee) kind : Solve Unit) s fun _ _ => True := by
  have linked {t : Solver} (st : s.Later t) : Advancing p sel none (do
      modify (·.announce (.call e))
      match e.kind with
      | .extension .. => return
      | kind => linkCall ⟨c, site⟩ (← methodAt e.callee) kind : Solve Unit) t fun _ _ => True := by
    refine .bind (advancing_announce (settled.kept st.toKeeps)) fun _ u tu _ => ?_
    have su := st.trans tu
    split
    · exact .pure trivial
    · refine .after (safe_methodAt (su.elements.methods _ _ hcallee)) ?_
      exact advancing_linkCall _ hdecl (caller.kept su.toKeeps)
        ⟨e.callee, su.elements.methods _ _ hcallee, su.reached _ settled.reached⟩
  cases isNew with
  | true => exact .bind (advancing_enter hcallee settled.reached) fun _ t st _ => linked st
  | false => exact linked (.refl s)

/-- The next call is added: its caller has been reached, and its callee is reached then. -/
theorem safe_processCallEdge {e : CallEdge} {rest : Queue CallEdge} (hs : Grounded p sel none s)
    (next : s.callQueue.toList = e :: rest.toList) :
    Safe (processCallEdge e) { s with callQueue := rest } fun _ t => Moves p sel s t := by
  have placed := hs.queued e (by simp [next])
  obtain ⟨c, site, decl, hsite, hdecl, cm, hcm, reached⟩ := placed.site
  obtain ⟨⟨d, m⟩, hcallee⟩ := placed.callee
  -- while the call is in no queue, its callee is promised
  have popped : s.Keeps { s with callQueue := rest } := ⟨.refl _, .refl _, fun _ => id⟩
  have promised : Grounded p sel (some (d, m)) { s with callQueue := rest } := by
    refine hs.become popped ?_
      ⟨rfl, rfl, hs.elements, .inl, .inl, .inl, id, fun he' => ?_, .inl, .inl, .inl⟩
    · rintro c' m' (⟨⟨⟩⟩ | ⟨cm', hcm', reached | ⟨e', he', rfl⟩⟩)
      · exact .inr ⟨cm', hcm', .inl reached⟩
      · rw [next, List.mem_cons] at he'
        obtain rfl | he' := he'
        · cases hcm'.symm.trans hcallee
          exact .inl rfl
        · exact .inr ⟨e'.callee, hcm', .inr ⟨e', he', rfl⟩⟩
    · exact .inl (by rw [next]; exact List.mem_cons_of_mem _ he')
  have hc : Elements.Knows { s with callQueue := rest }.elements p.toCatalog sel.limit c :=
    (hs.elements.methods cm _ hcm).1
  have lt : decl.container.index < p.methods.size := (hs.elements.methods cm _ hcm).2
  refine .bind (safe_siteAt hsite) ?_
  rintro _ _ ⟨rfl, rfl⟩
  refine .bind (safe_callSite (d := decl) (by rw [promised.program]; exact hdecl)) ?_
  rintro decl _ ⟨rfl, rfl⟩
  refine .bind (advancing_internMethod hc lt promised) ?_
  rintro caller t ⟨st, hcaller⟩
  have same : caller = cm := Table.id_eq_of_key_eq hcaller (st.elements.methods _ _ hcm) rfl
  subst same
  have reachedNow : t.calls.Reaches caller := st.reached _ reached
  have su := popped.trans st.toKeeps
  refine .bind safe_get ?_
  rintro _ _ ⟨rfl, rfl⟩
  rw [if_neg fun stopped => CallGraph.not_isReached_iff.1 stopped reachedNow]
  refine .bind safe_get ?_
  rintro _ _ ⟨rfl, rfl⟩
  refine .bind safe_change ?_
  rintro _ _ ⟨rfl, rfl⟩
  have calleeNow := st.elements.methods _ _ hcallee
  by_cases fresh : ∃ call, t.calls.Records call ∧ call.ends = (e.site, e.callee)
  case pos =>
    obtain ⟨-, eq⟩ | ⟨fresh', -⟩ := t.calls.add_cases caller e
    case inr => exact absurd fresh fresh'
    simp only [eq]
    obtain ⟨call, recorded, ends⟩ := fresh
    have settled := st.grounded.recorded call recorded
    have reaches : t.calls.Reaches e.callee := (Prod.mk.inj ends).2 ▸ settled.reached
    exact .pure ⟨su, st.grounded.keep (.inr ⟨e.callee, calleeNow, .inl reaches⟩)⟩
  case neg =>
    obtain ⟨old, -⟩ | ⟨-, flag, -⟩ := t.calls.add_cases caller e
    case inl => exact absurd old fresh
    obtain ⟨tu, hu, settled⟩ := grounded_addCall st.grounded (placed.kept su) ⟨_, hcaller⟩
      calleeNow fresh
    simp only [flag, if_true]
    have callerThen : Solver.Reached { t with calls := (t.calls.add caller e).2 } c decl.container :=
      ⟨caller, hcaller, tu.reached _ reachedNow⟩
    have rest := advancing_recorded (!t.calls.isReached e.callee) hdecl callerThen calleeNow
      settled hu
    exact rest.mono fun _ v ⟨uv, _⟩ => ⟨(su.trans tu.toKeeps).trans uv.toKeeps, uv.grounded⟩

/-! ### Objects -/

section Arrivals

variable {o : ContextObjectId} (ho : ∃ pair, s.elements.objects.get? o = some pair)
include ho

theorem advancing_processAccesses {uses : VarUses} (reached : s.Reached c m)
    (own : p.OwnUses m uses) :
    Advancing p sel none (processAccesses c uses o) s fun _ _ => True := fun hs => by
  have var {t : Solver} (st : s.Later t) {v : VarId} (owns : p.Owns m v) :
      Advancing p sel none (do return .var (← change (·.internVar c v)) : Solve Pointer) t
        fun q t => t.Open p.toCatalog none q := by
    have admits := (hs.admits reached owns).later st
    exact .bind (advancing_internVar admits.1 owns.lt_size) fun x u tu hx =>
      .pure ⟨c, v, hx, (admits.later tu).2⟩
  have cell {t : Solver} (st : s.Later t) : ∃ pair, t.elements.objects.get? o = some pair :=
    ho.imp (st.elements.objects o)
  unfold processAccesses
  refine Advancing.bind (.forM fun (field, lhs) mem t st => ?_) (fun _ t st _ => ?_) hs
  · obtain ⟨owns, lt⟩ := own.loads _ mem
    exact .bind (var st owns) fun q u tu hq =>
      advancing_addFlow ⟨cell (st.trans tu), lt⟩ hq nofun
  refine .bind (.forM fun (field, rhs) mem u tu => ?_) fun _ u tu _ => ?_
  · obtain ⟨owns, lt⟩ := own.stores _ mem
    have su := st.trans tu
    exact .bind (var su owns) fun q v uv hq =>
      advancing_addFlow hq.names (show Solver.Open _ _ _ (.field o field) from
        ⟨cell (su.trans uv), lt⟩) nofun
  refine .bind (.forM fun lhs mem v uv => ?_) fun _ v uv _ => ?_
  · have sv := (st.trans tu).trans uv
    exact .bind (var sv (own.arrayLoads lhs mem)) fun q w vw hq =>
      advancing_addFlow (show Solver.Names _ _ (.array o) from cell (sv.trans vw)) hq nofun
  · refine .forM fun rhs mem w vw => ?_
    have sw := ((st.trans tu).trans uv).trans vw
    exact .bind (var sw (own.arrayStores rhs mem)) fun q x wx hq =>
      advancing_addFlow hq.names (show Solver.Open _ _ _ (.array o) from cell (sw.trans wx)) nofun

/-- A receiver is bound before the callee is reached; the call that reaches it is queued at
once. -/
theorem advancing_processReceiver {site : CallSiteId} {decl : CallSite}
    (hsite : p.callSites[site]? = some decl) (reached : s.Reached c decl.container) :
    Advancing p sel none (processReceiver c site decl o) s fun _ _ => True := fun hs => by
  refine Safe.bind (safe_dispatch? hs ho decl.target) ?_
  rintro callee _ ⟨rfl, declared⟩
  cases callee with
  | none =>
    refine advancing_announce ⟨⟨decl, hsite, reached⟩, ?_⟩ hs
    rintro _ ⟨⟩
    exact ho
  | some callee =>
    obtain ⟨target, htarget⟩ := declared callee rfl
    refine Advancing.bind (advancing_internSite (hs.knows reached) (Roster.lt_size hsite))
      (fun cs t st hcs => ?_) hs
    refine .bind (advancing_dispatchContext hcs (ho.imp (st.elements.objects o))) ?_
    rintro cc u tu hcc
    have su := st.trans tu
    refine Advancing.promising (c := cc) (m := callee) ?_
    refine .bind (advancing_bindReceiver hcc ⟨target, htarget⟩ (ho.imp (su.elements.objects o))) ?_
    rintro _ v uv -
    refine .bind (advancing_internMethod (hcc.within uv.elements) (Roster.lt_size htarget)) ?_
    rintro cm w vw hcm
    have uw := uv.trans vw
    have kind : ∀ tag origin, (if decl.kind = .interface then CallEdgeKind.interface else .virtual)
        ≠ .extension tag origin := by
      intro tag origin
      split <;> nofun
    refine (advancing_queueCall ⟨⟨c, site, decl, ?_, hsite, ?_⟩, ⟨_, hcm⟩, ?_⟩ hcm).mono ?_
    · exact (tu.trans uw).elements.sites _ _ hcs
    · exact reached.kept (su.trans uw).toKeeps
    · exact fun tag origin same => absurd same (kind tag origin)
    · exact fun _ _ _ alive => ⟨alive, trivial⟩

end Arrivals

/-- A variable may be processed when its method is reached in its context. -/
theorem advancing_processVar {x : ContextVarId} {v : VarId} {delta : Objects}
    (hx : s.elements.vars.get? x = some ⟨c, v⟩) (owns : p.Owns m v) (reached : s.Reached c m)
    (known : ∀ o ∈ delta, ∃ pair, s.elements.objects.get? o = some pair) :
    Advancing p sel none (processVar x delta) s fun _ _ => True := fun hs => by
  obtain ⟨uses, huses⟩ := hs.wellFormed.uses (hs.elements.vars x _ hx).2
  have own := hs.wellFormed.ownUses owns huses
  have ready {t : Solver} (st : s.Later t) (o) (ho : o ∈ delta.toList) :
      ∃ pair, t.elements.objects.get? o = some pair :=
    (known o (HybridSet.mem_toList.1 ho)).imp (st.elements.objects o)
  refine Advancing.after (safe_varAt hx) (.afterGet (.after (a := uses) ?_ ?_)) hs
  · rw [hs.program]
    exact safe_known huses
  have rest {t : Solver} (st : s.Later t) : Advancing p sel none (do
      uses.invokes.forM fun site => do
        let decl ← callSite site
        delta.toList.forM (processReceiver c site decl)
      modify (·.announce (.objects x delta)) : Solve Unit) t fun _ _ => True := by
    refine .bind (.forM fun site mem u tu => ?_) fun _ u tu _ => ?_
    · obtain ⟨decl, hsite, rfl⟩ := own.invokes site mem
      intro hu
      refine Advancing.after (safe_callSite (d := decl) (by rw [hu.program]; exact hsite)) ?_ hu
      refine .forM fun o ho w uw => ?_
      have sw := (st.trans tu).trans uw
      exact advancing_processReceiver (ready sw o ho) hsite (reached.kept sw.toKeeps)
    · have su := st.trans tu
      refine advancing_announce ⟨⟨c, v, m, su.elements.vars x _ hx, owns, ?_⟩, fun o ho => ?_⟩
      · exact reached.kept su.toKeeps
      · exact (known o ho).imp (su.elements.objects o)
  split
  · refine .bind (.forM fun o ho t st => ?_) fun _ t st _ => rest st
    exact advancing_processAccesses (ready st o ho) (reached.kept st.toKeeps) own
  · exact rest (.refl s)

/-- The next node passes on its objects, when no call is queued. -/
theorem safe_processNode {n : NodeId} {rest : Queue NodeId} (hs : Grounded p sel none s)
    (quiet : s.callQueue.toList = []) :
    Safe (processNode n) { s with worklist := rest } fun _ t => Moves p sel s t := by
  suffices Advancing p sel none (processNode n) { s with worklist := rest } fun _ _ => True by
    have same : Advances p sel none s { s with worklist := rest } :=
      hs.withPoints fun _ _ => .inl
    exact (this same.grounded).mono fun _ t ⟨st, _⟩ => (same.trans st).moves
  refine .bind (.change (Q := fun delta t => delta = (s.points.flush n).1 ∧
    t = { s with worklist := rest, points := (s.points.flush n).2 }) fun h => ?_) ?_
  · exact ⟨h.withPoints fun _ _ mem => .inl (PendingStore.mem_all_flush.1 mem), rfl, rfl⟩
  rintro delta t - ⟨hdelta, ht⟩ grounded
  cases delta with
  | none => exact Advancing.pure trivial grounded
  | some delta =>
    have handed (o) : o ∈ delta ↔ o ∈ s.points.pendingOf n :=
      PendingStore.mem_of_flush hdelta.symm
    have mem (o) (ho : o ∈ delta) : o ∈ t.points.all n := by
      rw [ht]
      exact PendingStore.mem_all_flush.2 (PendingStore.mem_all.2 (.inl ((handed o).1 ho)))
    have known (o) (ho : o ∈ delta) := (grounded.points n o (mem o ho)).2
    refine Advancing.afterGet (.bind (.forM ?_) fun _ u tu _ => ?_) grounded
    · rintro ⟨target, kind⟩ out u tu
      obtain ⟨-, ⟨q, hq, can⟩, cast⟩ :=
        grounded.flows ⟨n, target, kind⟩ ((grounded.filed n target kind).1 out)
      exact advancing_propagate (tu.nodes _ _ hq) (can.later tu) cast
        fun o ho => (known o ho).imp (tu.elements.objects o)
    · obtain ⟨o, ho⟩ := PendingStore.exists_mem_of_flush hdelta.symm
      obtain ⟨⟨q, hq, -⟩, -⟩ := grounded.points n o (mem o ho)
      refine .afterGet (.after (safe_known (tu.nodes n q hq)) ?_)
      split
      next x =>
        have quietNow : t.callQueue.toList = [] := by rw [ht]; exact quiet
        obtain ⟨c, v, m, hx, owns, reached⟩ :=
          grounded.reached_of_mem quietNow (mem o ho) hq
        exact advancing_processVar (tu.elements.vars x _ hx) owns (reached.kept tu.toKeeps)
          fun o ho => (known o ho).imp (tu.elements.objects o)
      next => exact .pure trivial

/-- A step keeps the state in order. -/
theorem safe_step (hs : Grounded p sel none s) : Safe step s fun _ t => Moves p sel s t := by
  refine .bind safe_get ?_
  rintro _ _ ⟨rfl, rfl⟩
  split
  next e rest hpop =>
    refine .bind (.set (Q := fun _ t => t = { s with callQueue := rest }) rfl) ?_
    rintro _ _ rfl
    exact .bind (safe_processCallEdge hs (Queue.toList_of_pop? hpop)) fun _ _ st => .pure st
  next noCall =>
    rw [Queue.pop?_eq_none_iff] at noCall
    split
    next n rest hpop =>
      refine .bind (.set (Q := fun _ t => t = { s with worklist := rest }) rfl) ?_
      rintro _ _ rfl
      exact .bind (safe_processNode hs noCall) fun _ _ st => .pure st
    next => exact .pure (.refl hs)

end Solve

end PointsTo
