import PointsTo.Proofs.Limits.States

/-!
The work of the solver puts entities only in contexts that the selector allows, and callees in those that
follow from their calls, also when it breaks off.
-/
namespace PointsTo

open Facts

variable {α β : Type} {sel : Selector} {E : Fault → Prop} {s : Solver}

/-- The solver's contexts stay no longer than the selector allows while `f` is computed, whether `f`
gives a value that satisfies `Q` or fails with a fault that satisfies `E`. -/
abbrev Confines (sel : Selector) (E : Fault → Prop) (f : Solve α) (s : Solver)
    (Q : α → Solver → Prop) : Prop :=
  Upholds (Solver.Bounded sel) Solver.Deepens (fun fault t => E fault ∧ t.Bounded sel) f s Q

/-- A lookup that fails is endured. -/
theorem Selector.Endures.refused (endures : sel.Endures E) (fault : Fault)
    (reason : fault = .unknownId) (hs : s.Bounded sel) : E fault ∧ s.Bounded sel :=
  ⟨reason ▸ endures.unknown, hs⟩

namespace Solve

/-! ### Ids -/

theorem confines_withElements {f : Elements → α × Elements} {Q : α → Solver → Prop}
    (widens : s.elements.Widens sel.limit (f s.elements).2)
    (post : Q (f s.elements).1 (s.withElements f).2) :
    Confines sel E (change (·.withElements f)) s Q :=
  .modifyGet (fun hs => ⟨hs.withElements widens, widens.within⟩) fun _ => post

section Allowed

variable {c d : ContextId} (hc : s.elements.Allows sel.limit c)
include hc

theorem confines_internVar {v : VarId} :
    Confines sel E (change (·.internVar c v)) s fun _ _ => True :=
  confines_withElements (Elements.widens_internVar hc) trivial

theorem confines_internMethod {m : MethodId} :
    Confines sel E (change (·.internMethod c m)) s fun cm t =>
      t.elements.methods.get? cm = some ⟨c, m⟩ :=
  confines_withElements (Elements.widens_internMethod hc) CopyTable.get?_intern

theorem confines_internSite {site : CallSiteId} :
    Confines sel E (change (·.internSite c site)) s fun _ _ => True :=
  confines_withElements (Elements.widens_internSite hc) trivial

theorem confines_addObjectIn {v : VarId} {o : ObjectId} (ho : s.elements.Houses sel.limit o d) :
    Confines sel E (modify (·.addObjectIn c v d o)) s fun _ _ => True :=
  .modify fun hs => ⟨hs.addObjectIn hc ho,
    trans_of Solver.Deepens (b := ((s.internVar c v).2.internObject d o).2)
      (Elements.within_internVar.trans Elements.within_internObject)
      (Solver.deepens_of_same Solver.rewires_addObject.elements)⟩

theorem confines_addObjectsIn {v : VarId} (objects : Objects) :
    Confines sel E (modify (·.addObjectsIn c v objects)) s fun _ _ => True :=
  .modify fun hs => ⟨hs.addObjectsIn hc, Solver.extends_addObjectsIn.elements⟩

end Allowed

theorem confines_internObject {c : ContextId} {o : ObjectId}
    (ho : s.elements.Houses sel.limit o c) :
    Confines sel E (change (·.internObject c o)) s fun _ _ => True :=
  confines_withElements (Elements.widens_internObject ho) trivial

theorem confines_allocate {m : MethodId} {i : Nat} {type : TypeId} :
    Confines sel E (change (·.allocate m i type)) s fun o t =>
      ∃ a, t.elements.heap.get? o = some a :=
  confines_withElements Elements.widens_internHeap
    ((Table.intern_spec s.elements.heap _).2.1.imp fun _ => And.left)

/-- A made-up object may be in every context that the selector allows. -/
theorem confines_mock {description : String} {site : CallSiteId} {type : TypeId}
    {container : Option MethodId} :
    Confines sel E (change (·.mock description site type container)) s fun o t =>
      t.elements.Roams sel.limit o :=
  confines_withElements Elements.widens_internHeap Elements.roams_mock

theorem confines_settle {k : Nat} {select : Solver → Except Fault Selection}
    {P : ContextId → Elements → Prop}
    (fits : s.Bounded sel → Selector.Fits E s.elements k (select s))
    (settled : s.Bounded sel → ∀ selection, select s = .ok selection →
      P (s.elements.settle selection).1 (s.elements.settle selection).2) :
    Confines sel E (settle select) s fun c t => t.elements.Allows k c ∧ P c t.elements := by
  refine .afterGet fun hs => ?_
  have chosen := fits hs
  have settled := settled hs
  cases hsel : select s with
  | error fault =>
    rw [hsel] at chosen
    exact ⟨chosen, hs⟩
  | ok selection =>
    rw [hsel] at chosen
    have post := settled selection hsel
    cases selection with
    | known c => exact ⟨hs, .refl s.elements, chosen, post⟩
    | built l =>
      have widens := Elements.widens_internContext (k := sel.limit) (e := s.elements) (l := l)
      exact ⟨hs.withElements widens, widens.within, ⟨l, ContextTable.get?_intern, chosen⟩, post⟩

/-- What is noted about calls puts nothing in a context. -/
theorem confines_record {f : CallGraph → α × CallGraph}
    (records : ∀ call, (f s.calls).2.Records call → s.calls.Records call ∨
      s.elements.Follows sel call.edge.site call.edge.callee) :
    Confines sel E (change fun s =>
      let (a, calls) := f s.calls
      (a, { s with calls })) s fun _ _ => True := by
  refine .modifyGet (fun hs => ⟨hs.of_same rfl rfl (fun _ => id) ?_, .refl s.elements⟩)
    fun _ => trivial
  rintro cs cm (queued | ⟨call, recorded, ends⟩)
  · exact .inl (.inl queued)
  · obtain ⟨rfl, rfl⟩ := Prod.mk.inj ends
    exact (records call recorded).imp_left fun old => .inr ⟨call, old, rfl⟩

theorem confines_warn (text : String) :
    Confines sel E (modify (·.warn text)) s fun _ _ => True :=
  .modify fun hs => ⟨hs.of_same rfl rfl (fun _ => id) .inl, .refl s.elements⟩

theorem confines_store (key : String) (finding : Finding) :
    Confines sel E (modify (·.store key finding)) s fun _ _ => True :=
  .modify fun hs => ⟨hs.of_same rfl rfl (fun _ => id) .inl, .refl s.elements⟩

theorem confines_addVarObject (x : ContextVarId) (o : ContextObjectId) :
    Confines sel E (modify (·.addVarObject x o)) s fun _ _ => True :=
  .modify fun hs => ⟨hs.addObject, Solver.deepens_of_same Solver.rewires_addObject.elements⟩

theorem confines_queueCall {edge : CallEdge}
    (follows : s.elements.Follows sel edge.site edge.callee) :
    Confines sel E (modify (·.queueCall edge)) s fun _ _ => True := by
  refine .modify fun hs => ⟨hs.of_same rfl rfl (fun _ => id) ?_, .refl s.elements⟩
  rintro cs cm (⟨e, he, rfl, rfl⟩ | recorded)
  · rcases Queue.mem_push.1 he with old | rfl
    · exact .inl (.of_queue old)
    · exact .inr follows
  · exact .inl (.inr recorded)

theorem confines_announce {e : Event} (allowed : ∀ receiver c site, e = .unresolved receiver c site →
    s.elements.Allows sel.limit c) :
    Confines sel E (modify (·.announce e)) s fun _ _ => True :=
  .modify fun hs => ⟨hs.announce allowed, .refl s.elements⟩

section Tolerant

variable (endures : sel.Endures E)
include endures

theorem confines_calleeContext {site : ContextSiteId} :
    Confines sel E (calleeContext site) s fun c t =>
      t.elements.Allows sel.limit c ∧ t.elements.Continues sel site c := by
  apply confines_settle (P := fun c e => e.Continues sel site c)
  case fits =>
    intro hs
    rw [hs.selector]
    exact Selector.fits_calleeContext endures hs.elements site
  case settled =>
    intro hs selection chosen
    rw [hs.selector] at chosen
    exact Selector.continues_calleeContext hs.elements chosen

theorem confines_dispatchContext {site : ContextSiteId} {o : ContextObjectId} :
    Confines sel E (dispatchContext site o) s fun c t =>
      t.elements.Allows sel.limit c ∧ t.elements.Continues sel site c := by
  apply confines_settle (P := fun c e => e.Continues sel site c)
  case fits =>
    intro hs
    rw [hs.selector]
    exact Selector.fits_dispatchContext endures hs.elements
  case settled =>
    intro hs selection chosen
    rw [hs.selector] at chosen
    exact Selector.continues_dispatchContext hs.elements chosen

theorem confines_heapContext {cm : ContextMethodId} :
    Confines sel E (heapContext cm) s fun c t => t.elements.Allows (sel.limit - 1) c := by
  have settled : Confines sel E (heapContext cm) s fun c t =>
      t.elements.Allows (sel.limit - 1) c ∧ True := by
    apply confines_settle (P := fun _ _ => True)
    case fits =>
      intro hs
      rw [hs.selector]
      exact Selector.fits_heapContext endures hs.elements
    case settled =>
      intro _ _ _
      trivial
  exact settled.mono fun _ _ _ => And.left

/-! ### Flows -/

theorem confines_propagate {n : NodeId} {kind : FlowKind} {objects : Objects} :
    Confines sel E (propagate n kind objects) s fun _ _ => True := by
  refine .afterGet ?_
  split
  · exact fun hs =>
      ⟨hs.uniteInto, Solver.deepens_of_same Solver.rewires_uniteInto.elements, trivial⟩
  · exact .throw fun hs => ⟨endures.unknown, hs⟩

theorem confines_addFlow (p q : Pointer) (kind : FlowKind) :
    Confines sel E (addFlow p q kind) s fun _ _ => True := by
  have plain {γ : Type} {f : Solver → γ × Solver} (same : ∀ t, (f t).2.selector = t.selector ∧
      (f t).2.elements = t.elements ∧ (f t).2.events = t.events ∧
      ∀ cs cm, (f t).2.Pending cs cm → t.Pending cs cm) (t : Solver) :
      Confines sel E (change f) t fun _ _ => True := by
    obtain ⟨selector, elements, events, pending⟩ := same t
    exact .modifyGet (fun ht => ⟨ht.of_same selector elements (events ▸ fun _ => id)
      fun h => .inl (pending _ _ h), Solver.deepens_of_same elements⟩) fun _ => trivial
  refine .bind (plain (fun _ => ⟨rfl, rfl, rfl, fun _ _ => id⟩) s) fun n t _ _ => ?_
  refine .bind (plain (fun _ => ⟨rfl, rfl, rfl, fun _ _ => id⟩) t) fun m u _ _ => ?_
  refine .bind (plain (fun _ => ⟨rfl, rfl, rfl, fun _ _ => id⟩) u) fun fresh v _ _ => ?_
  split
  · exact .afterGet (confines_propagate endures)
  · exact .pure trivial

theorem confines_addVarFlow {c d : ContextId} {v w : VarId} {kind : FlowKind}
    (hc : s.elements.Allows sel.limit c) (hd : s.elements.Allows sel.limit d) :
    Confines sel E (addVarFlow c v d w kind) s fun _ _ => True :=
  .bind (confines_internVar hc) fun _ _ st _ =>
    .bind (confines_internVar (hd.within st)) fun _ _ _ _ => confines_addFlow endures _ _ _

/-! ### Methods -/

section Allowed

variable {c : ContextId} (hc : s.elements.Allows sel.limit c)
include hc

theorem confines_processNamedCall (site : CallSiteId) (target : MethodRef) (kind : CallEdgeKind) :
    Confines sel E (processNamedCall c site target kind) s fun _ _ => True := by
  refine .afterGet ?_
  split
  · refine .bind (confines_internSite hc) fun cs t _ _ => ?_
    refine .bind (confines_calleeContext endures) fun d u _ ⟨hd, continues⟩ => ?_
    exact .bind (confines_internMethod hd) fun cm v uv hcm =>
      confines_queueCall ⟨_, hcm, continues.within uv⟩
  · exact .after looks_siteText endures.refused fun _ _ => confines_warn _

omit endures in
theorem confines_processDynamicCall (site : CallSiteId) (decl : CallSite) (call : DynamicCall) :
    Confines sel E (processDynamicCall c site decl call) s fun _ _ => True := by
  unfold processDynamicCall
  split
  · split
    · refine .bind confines_mock fun o t st made => ?_
      exact confines_addObjectIn (hc.within st) (made.houses Elements.allows_emptyId)
    · exact .pure trivial
  · refine confines_announce fun receiver d site same => ?_
    cases same
    exact hc

theorem confines_processCall (site : CallSiteId) :
    Confines sel E (processCall c site) s fun _ _ => True := by
  refine .after looks_callSite endures.refused fun decl _ => ?_
  split
  · exact confines_processNamedCall endures hc _ _ _
  · exact confines_processNamedCall endures hc _ _ _
  · exact .pure trivial
  · exact .pure trivial
  · exact confines_processDynamicCall hc _ _ _

theorem confines_processStatement (cm : ContextMethodId) (m : MethodId) (i : Nat)
    (statement : Statement) :
    Confines sel E (processStatement cm ⟨c, m⟩ i statement) s fun _ _ => True := by
  cases statement with
  | new lhs type =>
    refine .bind confines_allocate fun o t st ⟨a, ha⟩ => ?_
    refine .bind (confines_heapContext endures) fun d u tu hd => ?_
    exact confines_addObjectIn (hc.within (st.trans tu))
      (Elements.houses_of_allows (tu.heap o a ha) hd)
  | assign | cast => exact confines_addVarFlow endures hc hc
  | loadStatic | storeStatic =>
    exact .bind (confines_internVar hc) fun _ _ _ _ => confines_addFlow endures _ _ _
  | invoke site => exact confines_processCall endures hc site
  | loadField | storeField | loadArray | storeArray | ret => exact .pure trivial

end Allowed

theorem confines_processMethod (cm : ContextMethodId) :
    Confines sel E (processMethod cm) s fun _ _ => True := fun hs => by
  refine Upholds.after looks_methodAt endures.refused (fun m hm => ?_) hs
  refine .after looks_methodDecl endures.refused fun d _ => .forM fun (statement, i) _ t st => ?_
  exact confines_processStatement endures ((hs.elements.methods cm m hm).within st) cm _ i statement

theorem confines_enter (cm : ContextMethodId) :
    Confines sel E (enter cm) s fun _ _ => True := by
  refine .after looks_methodAt endures.refused fun m _ => .afterGet ?_
  have rest (t : Solver) : Confines sel E (do
      modify (·.announce (.contextMethod cm))
      processMethod cm : Solve Unit) t fun _ _ => True :=
    .bind (confines_announce nofun) fun _ _ _ _ => confines_processMethod endures cm
  split
  · refine .bind (.modify fun hs => ⟨hs.of_same rfl rfl (fun _ => id) .inl, .refl s.elements⟩)
      fun _ t _ _ => ?_
    exact .bind (confines_announce nofun) fun _ u _ _ => rest u
  · exact rest s

theorem confines_reach (cm : ContextMethodId) :
    Confines sel E (reach cm) s fun _ _ => True := by
  refine .bind (confines_record (f := (·.reach cm)) fun call recorded => ?_) fun fresh t _ _ => ?_
  · rw [CallGraph.Records, CallGraph.calls_reach] at recorded
    exact .inl recorded
  split
  · exact confines_enter endures cm
  · exact .pure trivial

theorem confines_reachEntries : Confines sel E reachEntries s fun _ _ => True := by
  refine .after looks_catalog endures.refused fun _ _ => .forM fun entry _ t _ => ?_
  exact .bind (confines_internMethod Elements.allows_emptyId) fun cm u _ _ =>
    confines_reach endures cm

/-! ### Calls -/

/-- The receiver of a special call is bound. -/
theorem confines_bindBase {site : InContext .callSite} {callee : InContext .method}
    (kind : CallEdgeKind) (decl : CallSite) (target : MethodDecl)
    (hc : s.elements.Allows sel.limit site.context)
    (hd : s.elements.Allows sel.limit callee.context) : Confines sel E (do
      if kind = .special then
        if let (some base, some receiver) := (decl.base, target.receiver) then
          addVarFlow site.context base callee.context receiver .parameter : Solve Unit) s
      fun _ _ => True := by
  split
  · split
    · exact confines_addVarFlow endures hc hd
    · exact .pure trivial
  · exact .pure trivial

theorem confines_linkCall {site : InContext .callSite} {callee : InContext .method}
    (kind : CallEdgeKind) (hc : s.elements.Allows sel.limit site.context)
    (hd : s.elements.Allows sel.limit callee.context) :
    Confines sel E (linkCall site callee kind) s fun _ _ => True := by
  refine .after looks_callSite endures.refused fun decl _ => ?_
  refine .after looks_methodDecl endures.refused fun target _ => ?_
  refine .bind (.forM fun _ _ t st => confines_addVarFlow endures (hc.within st) (hd.within st))
    fun _ t st _ => ?_
  -- the receiver is bound last, whether or not there is a result
  have bound {u : Solver} (su : s.Deepens u) :=
    confines_bindBase endures kind decl target (hc.within su) (hd.within su)
  cases decl.result with
  | none => exact bound st
  | some result =>
    refine .bind (.forM fun _ _ u tu => ?_) fun _ u tu _ => bound (st.trans tu)
    exact confines_addVarFlow endures (hd.within (st.trans tu)) (hc.within (st.trans tu))

/-- What follows once a call has been recorded. -/
theorem confines_announceCall {site : InContext .callSite} (edge : CallEdge)
    (hc : s.elements.Allows sel.limit site.context) : Confines sel E (do
      modify (·.announce (.call edge))
      match edge.kind with
      | .extension .. => return
      | kind => linkCall site (← methodAt edge.callee) kind : Solve Unit) s fun _ _ => True := by
  refine .bind (confines_announce fun _ _ _ same => by cases same) fun _ t st _ => ?_
  split
  · exact .pure trivial
  · intro ht
    refine Upholds.after looks_methodAt endures.refused (fun callee hcallee => ?_) ht
    exact confines_linkCall endures _ (hc.within st) (ht.elements.methods _ _ hcallee)

theorem confines_processCallEdge {edge : CallEdge}
    (follows : s.elements.Follows sel edge.site edge.callee) :
    Confines sel E (processCallEdge edge) s fun _ _ => True := fun hs => by
  refine Upholds.after looks_siteAt endures.refused (fun site hsite => ?_) hs
  have hc := hs.elements.sites _ _ hsite
  refine .after looks_callSite endures.refused fun decl _ => ?_
  refine .bind (confines_internMethod hc) fun caller t st _ => .afterGet ?_
  by_cases stopped : (!t.calls.isReached caller) = true
  · rw [if_pos stopped]
    refine .after looks_siteText endures.refused fun text _ => .afterGet ?_
    exact .bind (P := fun _ _ => False) (.throw fun ht => ⟨endures.violated _, ht⟩)
      fun _ _ _ => False.elim
  rw [if_neg stopped]
  refine .afterGet (.bind (confines_record (f := (·.add caller edge)) fun call recorded => ?_)
    fun fresh u tu _ => ?_)
  · rcases t.calls.add_cases caller edge with ⟨-, same⟩ | ⟨-, -, -, -, -, records⟩
    · rw [same] at recorded
      exact .inl recorded
    · refine ((records call).1 recorded).imp_right ?_
      rintro rfl
      exact follows.within st
  cases fresh with
  | false => exact .pure trivial
  | true =>
    rw [if_pos rfl]
    exact .ite_bind (confines_enter endures _) fun v uv =>
      confines_announceCall endures edge (hc.within ((st.trans tu).trans uv))

/-! ### Objects -/

theorem confines_bindReceiver {c : ContextId} (hc : s.elements.Allows sel.limit c) (m : MethodId)
    (o : ContextObjectId) : Confines sel E (bindReceiver c m o) s fun _ _ => True := by
  refine .after looks_methodDecl endures.refused fun d _ => ?_
  split
  · exact .bind (confines_internVar hc) fun x t _ _ => confines_addVarObject x o
  · exact .pure trivial

section Allowed

variable {c : ContextId} (hc : s.elements.Allows sel.limit c)
include hc

theorem confines_processAccesses (uses : VarUses) (o : ContextObjectId) :
    Confines sel E (processAccesses c uses o) s fun _ _ => True := by
  have var {t : Solver} (st : s.Deepens t) (v : VarId) : Confines sel E
      (do return .var (← change (·.internVar c v)) : Solve Pointer) t fun _ _ => True :=
    .bind (confines_internVar (hc.within st)) fun _ _ _ _ => .pure trivial
  unfold processAccesses
  refine .bind (.forM fun _ _ u su => ?_) fun _ t st _ => ?_
  · exact .bind (var su _) fun _ _ _ _ => confines_addFlow endures _ _ _
  refine .bind (.forM fun _ _ u tu => ?_) fun _ u tu _ => ?_
  · exact .bind (var (st.trans tu) _) fun _ _ _ _ => confines_addFlow endures _ _ _
  have su := st.trans tu
  refine .bind (.forM fun _ _ v uv => ?_) fun _ v uv _ => .forM fun _ _ w vw => ?_
  · exact .bind (var (su.trans uv) _) fun _ _ _ _ => confines_addFlow endures _ _ _
  · exact .bind (var ((su.trans uv).trans vw) _) fun _ _ _ _ => confines_addFlow endures _ _ _

theorem confines_processReceiver (site : CallSiteId) (decl : CallSite) (o : ContextObjectId) :
    Confines sel E (processReceiver c site decl o) s fun _ _ => True := by
  refine .after looks_dispatch? endures.refused fun callee _ => ?_
  cases callee with
  | none =>
    refine confines_announce fun receiver d site same => ?_
    cases same
    exact hc
  | some callee =>
    refine .bind (confines_internSite hc) fun cs t _ _ => ?_
    refine .bind (confines_dispatchContext endures) fun d u _ ⟨hd, continues⟩ => ?_
    refine .bind (confines_bindReceiver endures hd callee o) fun _ v uv _ => ?_
    exact .bind (confines_internMethod (hd.within uv)) fun cm w vw hcm =>
      confines_queueCall ⟨_, hcm, continues.within (uv.trans vw)⟩

end Allowed

theorem confines_processVar (x : ContextVarId) (delta : Objects) :
    Confines sel E (processVar x delta) s fun _ _ => True := fun hs => by
  refine Upholds.after looks_varAt endures.refused (fun v hx => .afterGet ?_) hs
  have hc := hs.elements.vars x v hx
  refine .after looks_known endures.refused fun uses _ => ?_
  refine .ite_bind (.forM fun o _ t st => confines_processAccesses endures (hc.within st) uses o)
    fun t st => ?_
  refine .bind (.forM fun site _ u tu => ?_) fun _ _ _ _ => confines_announce nofun
  refine .after looks_callSite endures.refused fun decl _ => .forM fun o _ w uw => ?_
  exact confines_processReceiver endures (hc.within ((st.trans tu).trans uw)) site decl o

theorem confines_processNode (n : NodeId) :
    Confines sel E (processNode n) s fun _ _ => True := by
  refine .bind (.modifyGet (Q := fun _ _ => True) (fun hs =>
    ⟨hs.of_same rfl rfl (fun _ => id) .inl, .refl s.elements⟩) fun _ => trivial) fun delta t _ _ => ?_
  cases delta with
  | none => exact .pure trivial
  | some delta =>
    refine .afterGet (.bind (.forM fun _ _ _ _ => confines_propagate endures) fun _ u _ _ => ?_)
    refine .afterGet (.after looks_known endures.refused fun p _ => ?_)
    cases p with
    | var x => exact confines_processVar endures x delta
    | _ => exact .pure trivial

theorem confines_step : Confines sel E step s fun _ _ => True := by
  -- taking a piece of work puts nothing in a context
  have taken {t : Solver} (same : t.selector = s.selector ∧ t.elements = s.elements ∧
      t.events = s.events) (fewer : ∀ cs cm, t.Pending cs cm → s.Pending cs cm) :
      Confines sel E (set t) s fun _ _ => True := fun hs =>
    ⟨hs.of_same same.1 same.2.1 (same.2.2 ▸ fun _ => id) fun h => .inl (fewer _ _ h),
      Solver.deepens_of_same same.2.1, trivial⟩
  refine .afterGet ?_
  split
  next edge rest hpop =>
    have list := Queue.toList_of_pop? hpop
    intro hs
    have follows := hs.called _ _ (.of_queue (e := edge) (by rw [list]; exact List.mem_cons_self))
    refine Upholds.bind (taken ⟨rfl, rfl, rfl⟩ ?_) (fun _ t st _ => ?_) hs
    · intro cs cm pending
      refine pending.imp_left fun ⟨e, he, ends⟩ => ⟨e, ?_, ends⟩
      rw [list]
      exact List.mem_cons_of_mem edge he
    · exact .bind (confines_processCallEdge endures (follows.within st)) fun _ _ _ _ =>
        .pure trivial
  next =>
    split
    · refine .bind (taken ⟨rfl, rfl, rfl⟩ fun _ _ => id) fun _ t _ _ => ?_
      exact .bind (confines_processNode endures _) fun _ _ _ _ => .pure trivial
    · exact .pure trivial

end Tolerant
end Solve

end PointsTo
