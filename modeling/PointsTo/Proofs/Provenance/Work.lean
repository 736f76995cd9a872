import PointsTo.Proofs.Provenance
import PointsTo.Proofs.Work

/-!
What the solver adds can be traced: piece by piece, what statements, receivers and calls contribute.
-/
namespace PointsTo

open Facts

namespace Solver

variable {p : Program} {s t : Solver}

/-- What is new in states of a program can be traced. -/
def TracesIn (p : Program) (s t : Solver) : Prop := s.program = p → s.Traces t

instance : IsPreorder Solver (TracesIn p) where
  refl s _ := refl_of Traces s
  trans _ _ _ st tu same := trans_of Traces (st same) (tu ((st same).program.trans same))

/-- At the start there is nothing to trace. -/
theorem traced_initial {sel : Selector} {contexts : ContextTable} :
    (initial p sel contexts).Traced where
  flows := by
    rintro f ⟨i, h⟩
    cases h
  objects _ _ h := absurd h HybridSet.not_mem_empty
  announced _ h := by cases h

theorem traces_announce {e : Event} (new : ∀ edge, e = .call edge →
    ∃ call, s.calls.Records call ∧ call.edge = edge) : s.Traces (s.announce e) :=
  ⟨extends_announce.toGrows, fun _ => .inl, fun _ _ => .inl, fun edge he =>
    (Queue.mem_push.1 he).imp_right fun same => new edge same.symm⟩

end Solver

namespace Solve

open Solver

variable {α β : Type} {p : Program} {s : Solver}

/-! ### Lookups and ids -/

theorem traces_callSite {site : CallSiteId} {g : CallSite → Solve β}
    (h : ∀ decl, p.callSites[site]? = some decl → Relates (TracesIn p) (g decl)) :
    Relates (TracesIn p) (callSite site >>= g) := by
  intro s
  refine .bind ensures_callSite ?_
  rintro decl _ ⟨rfl, hd⟩ b t run same
  exact h decl (same ▸ hd) s b t run same

theorem traces_methodDecl {m : MethodId} {g : MethodDecl → Solve β}
    (h : ∀ d, p.methods[m]? = some d → Relates (TracesIn p) (g d)) :
    Relates (TracesIn p) (methodDecl m >>= g) := by
  intro s
  refine .bind ensures_methodDecl ?_
  rintro d _ ⟨rfl, hd⟩ b t run same
  exact h d (same ▸ hd) s b t run same

/-- Ids are given to things. -/
theorem traces_change {f : Solver → α × Solver} (entry : ∀ s, Entry s (f s).2)
    (same : ∀ s, (f s).2.flows = s.flows ∧ (f s).2.points = s.points) :
    Relates (TracesIn p) (change f) := .modifyGet fun s _ =>
  .of_same (entry s).extends.toGrows (same s).1 (same s).2 (entry s).silent.events

theorem traces_internVarOf (c : ContextId) (v : VarId) :
    Relates (TracesIn p) (change (·.internVar c v)) :=
  traces_change (fun s => .var s c v) fun _ => ⟨rfl, rfl⟩

theorem traces_internSiteOf (c : ContextId) (site : CallSiteId) :
    Relates (TracesIn p) (change (·.internSite c site)) :=
  traces_change (fun s => .site s c site) fun _ => ⟨rfl, rfl⟩

theorem traces_internMethodOf (c : ContextId) (m : MethodId) :
    Relates (TracesIn p) (change (·.internMethod c m)) :=
  traces_change (fun s => .method s c m) fun _ => ⟨rfl, rfl⟩

theorem traces_mockOf (description : String) (site : CallSiteId) (type : TypeId)
    (container : Option MethodId) :
    Relates (TracesIn p) (change (·.mock description site type container)) :=
  traces_change (fun s => .mock s description site type container) fun _ => ⟨rfl, rfl⟩

theorem traces_settle (select : Solver → Except Fault Selection) :
    Relates (TracesIn p) (settle select) := by
  refine .bind .get fun s => .bind (.of_same fun t => ?_) fun selection => ?_
  · exact fun _ u run => show t = u from congrArg Prod.snd run
  · refine .modifyGet fun t _ => ?_
    cases selection with
    | known id => exact refl_of Traces t
    | built context => exact .of_same (Entry.context t context).extends.toGrows rfl rfl rfl

theorem traces_queueCallOf (edge : CallEdge) :
    Relates (TracesIn p) (modify (·.queueCall edge) : Solve PUnit) :=
  .modify fun _ _ => .of_same extends_queueCall.toGrows rfl rfl rfl

theorem traces_warnOf (text : String) : Relates (TracesIn p) (modify (·.warn text) : Solve PUnit) :=
  .modify fun _ _ => .of_same extends_warn.toGrows rfl rfl rfl

theorem traces_announceOf {e : Event} (other : ∀ edge, e ≠ .call edge) :
    Relates (TracesIn p) (modify (·.announce e) : Solve PUnit) :=
  .modify fun _ _ => traces_announce fun edge same => absurd same (other edge)

/-! ### Assigned variables -/

section Assigned

variable {v : VarId} (assigns : p.Assigns v)
include assigns

theorem traces_addObjectInOf (c d : ContextId) (o : ObjectId) :
    Relates (TracesIn p) (modify (·.addObjectIn c v d o) : Solve PUnit) :=
  .modify fun _ same => traces_addObjectIn (same ▸ assigns)

theorem traces_addObjectsInOf (c : ContextId) (objects : Objects) :
    Relates (TracesIn p) (modify (·.addObjectsIn c v objects) : Solve PUnit) :=
  .modify fun _ same => traces_addObjectsIn (same ▸ assigns)

theorem traces_addVarObjectOf (c : ContextId) (o : ContextObjectId) :
    Relates (TracesIn p) (do
      let x ← change (·.internVar c v)
      modify (·.addVarObject x o) : Solve PUnit) := by
  intro s
  refine .bind ensures_change ?_
  rintro x _ ⟨rfl, rfl⟩
  refine ensures_modify.mono ?_
  rintro _ _ rfl same
  have named := traces_internVar (s := s) (c := c) (v := v)
  refine trans_of Traces named (traces_addVarObject get?_internVar ?_)
  rw [named.program, same]
  exact assigns

theorem traces_flowToVarOf (c : ContextId) (P : Pointer) (k : FlowKind) :
    Relates (TracesIn p) (do let x ← change (·.internVar c v); addFlow P (.var x) k) :=
  fun _ a t run same => traces_flowToVar (fun _ _ _ st _ hm => .inl (hm.ordinary (by
    rw [st.program, same]
    exact assigns))) a t run

theorem traces_addVarFlowOf (c d : ContextId) (w : VarId) (k : FlowKind) :
    Relates (TracesIn p) (addVarFlow c w d v k) :=
  .bind (traces_internVarOf c w) fun x => traces_flowToVarOf assigns d (.var x) k

end Assigned

theorem traces_flowToOther {P Q : Pointer} (other : ∀ x, Q ≠ .var x) (k : FlowKind) :
    Relates (TracesIn p) (addFlow P Q k) := fun _ a t run _ =>
  traces_addFlow (fun _ _ _ _ _ hm => .inl ⟨Q, hm, fun x same => absurd same (other x)⟩) a t run

theorem traces_bindReceiver (c : ContextId) (callee : MethodId) (o : ContextObjectId) :
    Relates (TracesIn p) (bindReceiver c callee o) := by
  refine traces_methodDecl fun d hd => ?_
  split
  next this ht => exact traces_addVarObjectOf (.receiver callee d hd ht) c o
  next => exact .pure

/-! ### Reached methods -/

theorem traces_processNamedCall (c : ContextId) (site : CallSiteId) (target : MethodRef)
    (kind : CallEdgeKind) : Relates (TracesIn p) (processNamedCall c site target kind) := by
  refine .bind .get fun s => ?_
  split
  · refine .bind (traces_internSiteOf c site) fun cs => .bind (traces_settle _) fun d => ?_
    exact .bind (traces_internMethodOf d _) fun cm => traces_queueCallOf _
  · exact .bind relates_siteText fun _ => traces_warnOf _

theorem traces_processCall (c : ContextId) (site : CallSiteId) :
    Relates (TracesIn p) (processCall c site) := by
  refine traces_callSite fun decl hd => ?_
  split
  · exact traces_processNamedCall c site _ _
  · exact traces_processNamedCall c site _ _
  · exact .pure
  · exact .pure
  next call _ =>
    unfold processDynamicCall
    split
    · split
      next result type heq =>
        obtain ⟨hr, -⟩ := Prod.mk.inj heq
        refine .bind (traces_mockOf _ _ _ _) fun o => traces_addObjectInOf ?_ c _ o
        exact .site site decl hd (by simp [CallSite.vars, hr])
      next => exact .pure
    · apply traces_announceOf
      intro edge same
      cases same

theorem traces_processStatement (cm : ContextMethodId) (m : InContext .method) (i : Nat)
    {statement : Statement} (contains : p.Contains statement) :
    Relates (TracesIn p) (processStatement cm m i statement) := by
  cases statement with
  | new lhs type =>
    refine .bind (traces_change (fun s => .allocation s _ _ _) fun _ => ⟨rfl, rfl⟩) fun o => ?_
    exact .bind (traces_settle _) fun d => traces_addObjectInOf (.statement _ contains rfl) _ d o
  | assign | cast => exact traces_addVarFlowOf (.statement _ contains rfl) _ _ _ _
  | loadStatic => exact traces_flowToVarOf (.statement _ contains rfl) _ _ _
  | storeStatic =>
    exact .bind (traces_internVarOf _ _) fun x => traces_flowToOther (fun _ h => by cases h) _
  | invoke site => exact traces_processCall _ site
  | loadField | storeField | loadArray | storeArray | ret => exact .pure

theorem traces_processMethod (cm : ContextMethodId) :
    Relates (TracesIn p) (processMethod cm) := by
  refine .bind relates_methodAt fun m => traces_methodDecl fun d hd => .forM ?_
  rintro ⟨statement, i⟩ mem
  have contains : statement ∈ d.body := Array.mem_def.2 (List.fst_mem_of_mem_zipIdx mem)
  exact traces_processStatement cm m i ⟨_, d, hd, contains⟩

theorem traces_enter (cm : ContextMethodId) : Relates (TracesIn p) (enter cm) := by
  have rest : Relates (TracesIn p) (do
      modify (·.announce (.contextMethod cm))
      processMethod cm : Solve Unit) :=
    .bind (traces_announceOf fun _ => nofun) fun _ => traces_processMethod cm
  refine .bind relates_methodAt fun m => .bind .get fun s => ?_
  split
  · refine .bind (.modify fun t _ => ?_) fun _ => .bind (traces_announceOf fun _ => nofun)
      fun _ => rest
    exact .of_same { Grows.refl t with } rfl rfl rfl
  · exact rest

theorem traces_reach (cm : ContextMethodId) : Relates (TracesIn p) (reach cm) := by
  refine .bind (.modifyGet fun s _ => .of_same (grows_reach _) rfl rfl rfl) fun fresh => ?_
  split
  · exact traces_enter cm
  · exact .pure

theorem traces_reachEntries : Relates (TracesIn p) reachEntries :=
  .bind relates_catalog fun _ => .forM fun m _ =>
    .bind (traces_internMethodOf _ m) fun cm => traces_reach cm

/-! ### Objects that arrive -/

theorem traces_processAccesses (indexed : p.Indexed) (c : ContextId) {v : VarId} {uses : VarUses}
    (hu : p.uses[v]? = some uses) (o : ContextObjectId) :
    Relates (TracesIn p) (processAccesses c uses o) := by
  have load {lhs : VarId} {s : Statement} (contains : p.Contains s) (target : s.target? = some lhs)
      (P : Pointer) (k : FlowKind) : Relates (TracesIn p) (do
        let q ← (do return .var (← change (·.internVar c lhs)) : Solve Pointer)
        addFlow P q k) := by
    simp only [bind_assoc, pure_bind]
    exact traces_flowToVarOf (.statement s contains target) c P k
  have store {Q : Pointer} (other : ∀ x, Q ≠ .var x) (rhs : VarId) (k : FlowKind) :
      Relates (TracesIn p) (do
        let q ← (do return .var (← change (·.internVar c rhs)) : Solve Pointer)
        addFlow q Q k) :=
    .bind (.bind (traces_internVarOf c rhs) fun _ => .pure) fun _ => traces_flowToOther other k
  refine .bind (.forM fun (field, lhs) mem => ?_) fun _ => ?_
  · exact load ((indexed.loads v uses hu field lhs).1 mem) rfl _ _
  refine .bind (.forM fun (field, rhs) _ => store (fun _ h => by cases h) rhs _) fun _ => ?_
  refine .bind (.forM fun lhs mem => ?_) fun _ => ?_
  · exact load ((indexed.arrayLoads v uses hu lhs).1 mem) rfl _ _
  · exact .forM fun rhs _ => store (fun _ h => by cases h) rhs _

theorem traces_processReceiver (c : ContextId) (site : CallSiteId) (decl : CallSite)
    (o : ContextObjectId) : Relates (TracesIn p) (processReceiver c site decl o) := by
  refine .bind relates_dispatch? fun callee => ?_
  split
  · exact traces_announceOf fun _ => nofun
  · refine .bind (traces_internSiteOf c site) fun cs => .bind (traces_settle _) fun d => ?_
    refine .bind (traces_bindReceiver d _ o) fun _ => .bind (traces_internMethodOf d _) fun cm => ?_
    exact traces_queueCallOf _

theorem traces_processVar (indexed : p.Indexed) (x : ContextVarId) (delta : Objects) :
    Relates (TracesIn p) (processVar x delta) := by
  refine .bind relates_varAt fun v => ?_
  intro s
  refine .bind ensures_get ?_
  rintro _ _ ⟨rfl, rfl⟩
  refine .bind ensures_known ?_
  rintro uses _ ⟨rfl, hu⟩ a t run same
  rw [same] at hu
  have rest : Relates (TracesIn p) (do
      uses.invokes.forM fun site => do
        let decl ← callSite site
        delta.toList.forM (processReceiver v.context site decl)
      modify (·.announce (.objects x delta)) : Solve Unit) := by
    refine .bind (.forM fun site _ => ?_) fun _ => traces_announceOf fun _ => nofun
    exact .bind relates_callSite fun decl => .forM fun o _ => traces_processReceiver _ _ _ o
  revert a t same
  refine Relates.mono (R := TracesIn p) ?_ (fun _ _ h => h) s
  split
  · exact .bind (.forM fun o _ => traces_processAccesses indexed _ hu o) fun _ => rest
  · exact rest

/-! ### Calls -/

section Calls

variable {edge : CallEdge} {site : InContext .callSite} {callee : InContext .method}

/-- A recorded call that no plugin contributes is linked. -/
theorem traces_linkCall (recorded : ∃ call, s.calls.Records call ∧ call.edge = edge)
    (hsite : s.elements.sites.get? edge.site = some site)
    (hcallee : s.elements.methods.get? edge.callee = some callee)
    (core : ∀ tag origin, edge.kind ≠ .extension tag origin) :
    Ensures (linkCall site callee edge.kind) s fun _ t => s.Traces t := by
  refine .bind ensures_callSite ?_
  rintro decl _ ⟨rfl, hdecl⟩
  refine .bind ensures_methodDecl ?_
  rintro d _ ⟨rfl, hd⟩
  have passed : s.passed? edge.kind site decl d = some (decl.args.map (site.context, ·)) := by
    unfold passed?
    split
    next tag origin hk => exact absurd hk (core tag origin)
    next => rfl
  have arguments := traces_passAll ⟨recorded, hsite, hdecl, hcallee, hd⟩ passed
  rw [List.zip_map_left, List.forM_eq_forM, List.forM_map] at arguments
  refine .bind arguments fun _ t st => ?_
  refine Ensures.mono (P := fun _ u => TracesIn s.program t u) ?_
    fun _ u tu => trans_of Traces st (tu st.program)
  -- the receiver is bound last, whether or not there is a result
  have returned (value result : VarId) (hr : decl.result = some result) :
      Relates (TracesIn s.program) (addVarFlow callee.context value site.context result .ret) :=
    traces_addVarFlowOf (.site _ decl hdecl (by simp [CallSite.vars, hr])) _ _ _ _
  cases hr : decl.result
  case' some result => refine .bind (Relates.forM (fun _ _ => returned _ _ hr) t) fun _ u tu => ?_
  case' some => refine Ensures.mono (P := fun _ v => TracesIn s.program u v) ?_ fun _ v => trans_of _ tu
  all_goals
    dsimp only
    split
    · split
      next b this heq =>
        obtain ⟨-, ht⟩ := Prod.mk.inj heq
        exact traces_addVarFlowOf (.receiver _ d hd ht) _ _ _ _ _
      · exact .pure (refl_of _ _)
    · exact .pure (refl_of _ _)

/-- A call is added: it is recorded before it is announced and linked. -/
theorem traces_processCallEdge (edge : CallEdge) :
    Ensures (processCallEdge edge) s fun _ t => s.Traces t := by
  refine .bind ensures_siteAt ?_
  rintro site _ ⟨rfl, hsite⟩
  refine .bind ensures_callSite ?_
  rintro decl _ ⟨rfl, hdecl⟩
  refine .bind (traces_internMethodOf (p := s.program) _ _ s) fun caller u su => ?_
  have su := su rfl
  refine Ensures.mono (P := fun _ t => u.Traces t) ?_ fun _ t => trans_of Traces su
  refine .bind ensures_get ?_
  rintro _ _ ⟨rfl, rfl⟩
  by_cases reached : u.calls.Reaches caller
  case neg =>
    rw [if_pos (CallGraph.not_isReached_iff.2 reached)]
    refine .bind ensures_siteText fun _ _ _ => .bind ensures_get fun _ _ _ => ?_
    exact .bind (P := fun _ _ => False) .throw fun _ _ => False.elim
  rw [if_neg fun stopped => CallGraph.not_isReached_iff.1 stopped reached]
  refine .bind ensures_get ?_
  rintro _ _ ⟨rfl, rfl⟩
  have g : u.Grows { u with calls := (u.calls.add caller edge).2 } := grows_addCall
  refine .bind ensures_change ?_
  rintro _ _ ⟨rfl, rfl⟩
  obtain ⟨-, eq⟩ | ⟨-, flag, -, -, -, records⟩ := u.calls.add_cases caller edge
  · simp only [eq]
    exact .pure (refl_of Traces u)
  simp only [flag, if_true]
  have added : u.Traces { u with calls := (u.calls.add caller edge).2 } := .of_same g rfl rfl rfl
  have recorded : ∃ call, (u.calls.add caller edge).2.Records call ∧ call.edge = edge :=
    ⟨_, (records _).2 (.inr rfl), rfl⟩
  refine .ite_bind (P := fun v => Traces { u with calls := (u.calls.add caller edge).2 } v)
    (fun _ => ?_) (fun _ => refl_of Traces _) fun v vw => ?_
  · exact (traces_enter edge.callee _).mono fun _ v uv => uv rfl
  have uv := trans_of Traces added vw
  have recorded := vw.toGrows.records recorded
  refine .bind ensures_modify ?_
  rintro _ _ rfl
  have announced : v.Traces (v.announce (.call edge)) := traces_announce fun edge' same => by
    cases same
    exact recorded
  have done := trans_of Traces uv announced
  split
  next => exact .pure done
  next core =>
    refine .bind ensures_methodAt ?_
    rintro callee _ ⟨rfl, hcallee⟩
    refine (traces_linkCall (announced.toGrows.records recorded)
      ((su.toGrows.trans done.toGrows).elements.sites _ _ hsite) hcallee core).mono ?_
    exact fun _ t => trans_of Traces done

end Calls

/-! ### Steps -/

/-- Objects are passed on along the flows that leave a node. -/
theorem traces_processNode (filed : s.flows.Filed) (indexed : s.program.Indexed) (n : NodeId) :
    Ensures (processNode n) s fun _ t => s.Traces t := by
  have handed : s.Traces { s with points := (s.points.flush n).2 } :=
    ⟨grows_flush, fun _ => .inl, fun _ _ ho => .inl (PendingStore.mem_all_flush.1 ho),
      fun _ => .inl⟩
  refine .bind ensures_change ?_
  rintro delta u ⟨hdelta, rfl⟩
  change delta = (s.points.flush n).1 at hdelta
  refine Ensures.mono (P := fun _ t => Traces { s with points := (s.points.flush n).2 } t) ?_
    fun _ t => trans_of Traces handed
  cases delta with
  | none => exact .pure (refl_of Traces _)
  | some delta =>
    have has (o) (ho : o ∈ delta) : o ∈ s.points.all n :=
      PendingStore.mem_all.2 (.inl ((PendingStore.mem_of_flush hdelta.symm).1 ho))
    refine .bind ensures_get ?_
    rintro _ _ ⟨rfl, rfl⟩
    refine .bind ((Ensures.forM (R := Traces) (D := fun _ _ => True) (fun _ t _ => refl_of Traces t)
      (fun _ _ _ => trans_of Traces) (fun _ _ _ _ => id) (refl_of Traces _) ?_).mono
      fun _ t => And.left) fun _ t st => ?_
    · rintro ⟨m, k⟩ mem t st
      have hf : t.flows.Has ⟨n, m, k⟩ := st.has ((filed n m k).1 mem)
      refine (traces_propagate hf fun o ho => ?_).mono fun _ u tu => ⟨tu, trivial⟩
      exact (handed.toGrows.trans st.toGrows).objects n o (has o ho)
    · refine Ensures.mono (P := fun _ u => TracesIn s.program t u) ?_
        fun _ u tu => trans_of Traces st (tu st.program)
      refine Relates.bind .get (fun u => .bind relates_known fun q => ?_) t
      cases q with
      | var x => exact traces_processVar indexed x delta
      | _ => exact .pure

theorem traced_withCallQueue (h : s.Traced) {callQueue : Queue CallEdge} :
    Traced { s with callQueue } where
  flows f hf := (h.flows f hf).imp_right
    fun ⟨edge, site, decl, callee, d, i, ⟨recorded, hs, hd, hc, hm⟩, argument, param⟩ =>
      ⟨edge, site, decl, callee, d, i, ⟨recorded, hs, hd, hc, hm⟩, argument, param⟩
  objects := h.objects
  announced := h.announced

/-- A step keeps a state traced. -/
theorem traced_step (h : s.Traced) (filed : s.flows.Filed) (indexed : s.program.Indexed) :
    Ensures step s fun _ t => t.Traced := by
  refine ensures_step_cases (fun edge rest _ => ?_) (fun n rest _ _ => ?_) fun _ => h
  · exact (traces_processCallEdge edge).mono fun _ t => (traced_withCallQueue h).traces
  · have popped : s.Traces { s with worklist := rest } :=
      .of_same { Grows.refl s with } rfl rfl rfl
    exact (traces_processNode (s := { s with worklist := rest }) filed indexed n).mono
      fun _ t => (h.traces popped).traces

end Solve
end PointsTo
