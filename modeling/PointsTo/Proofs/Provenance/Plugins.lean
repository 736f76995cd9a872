import PointsTo.Proofs.Provenance.Work
import PointsTo.Proofs.Taint.Reactions

/-!
What plugins add can be traced: function values pass parameters along the calls that they contribute,
and taint tracking adds to variables that stand at calls.
-/
namespace PointsTo

open Facts Solver Solve

variable {σ α β : Type} {p : Program} {s : Solver}

namespace Reaction

theorem traces_callSite {site : CallSiteId} {g : CallSite → Reaction σ β}
    (h : ∀ decl, p.callSites[site]? = some decl → Relates (Alike (TracesIn p)) (g decl)) :
    Relates (Alike (TracesIn p)) (solve (callSite site) >>= g) := by
  rintro ⟨own, s⟩
  refine .bind (ensures_lookup ensures_callSite) ?_
  rintro decl _ ⟨rfl, hd⟩ b t run same
  exact h decl (same ▸ hd) (own, s) b t run same

end Reaction

/-! ### Function values -/

namespace Lambda

theorem traces_addCall (i : Invocation) (receiver : Option ContextObjectId) (callee : MethodId) :
    Relates (TracesIn p) (addCall i receiver callee) := by
  have queued (c : ContextId) : Relates (TracesIn p) (do
      let contextCallee ← change (·.internMethod c callee)
      let origin ← change (·.internSite i.creationContext i.creation)
      modify (·.queueCall ⟨i.site, contextCallee, .extension callTag origin⟩) : Solve Unit) :=
    .bind (traces_internMethodOf c callee) fun _ => .bind (traces_internSiteOf _ _) fun _ =>
      traces_queueCallOf _
  cases receiver with
  | none => exact .bind (traces_settle _) queued
  | some o =>
    exact .bind (traces_settle _) fun c => .bind (traces_bindReceiver c callee o) fun _ => queued c

theorem traces_dispatchOn (i : Invocation) (receivers : Objects) :
    Relates (TracesIn p) (dispatchOn i receivers) := by
  refine .bind (relates_handleOf i.creation) fun handle => .forM fun o _ => ?_
  refine .bind relates_dispatch? fun callee => ?_
  cases callee with
  | none => exact .pure
  | some callee => exact traces_addCall i (some o) callee

theorem traces_createValues (m : MethodId) : Relates (Alike (TracesIn p)) (createValues m) := by
  refine .bind (Reaction.relates_solve relates_methodDecl) fun d => .forM fun statement _ => ?_
  split
  next site =>
    refine .bind (Reaction.relates_solve relates_callSite) fun decl => ?_
    split
    · split
      · exact .bind (Reaction.relates_solve (traces_mockOf _ _ _ _)) fun _ =>
          Reaction.relates_modifyOwn
      · exact .pure
    · exact .pure
  next => exact .pure

/-- Function values reach the results of their creation sites. -/
theorem traces_placeValues (cm : ContextMethodId) :
    Relates (Alike (TracesIn p)) (placeValues cm) := by
  refine .bind (Reaction.relates_solve relates_methodAt) fun m => ?_
  refine .bind Reaction.relates_own fun own => .forM fun (site, o) _ => ?_
  refine Reaction.traces_callSite fun decl hd => ?_
  split
  next result hr =>
    have assigns : p.Assigns result := .site site decl hd (by simp [CallSite.vars, hr])
    exact Reaction.relates_solve (traces_addObjectInOf assigns _ _ _)
  · exact .pure

theorem traces_construct (i : Invocation) (c : ContextId) {site : CallSiteId} {decl : CallSite}
    (hd : p.callSites[site]? = some decl) (creation : CallSite) (target : MethodId) :
    Relates (TracesIn p) (construct i c decl creation target) := by
  refine .bind relates_methodDecl fun d => .bind (traces_mockOf _ _ _ _) fun a => ?_
  refine .bind (traces_change (fun s => .object s c a) fun _ => ⟨rfl, rfl⟩) fun o => ?_
  have call := traces_addCall (p := p) i (some o) target
  cases hr : decl.result with
  | none => exact call
  | some result =>
    have assigns : p.Assigns result := .site site decl hd (by simp [CallSite.vars, hr])
    dsimp only
    rw [← bind_assoc]
    exact .bind (traces_addVarObjectOf assigns c o) fun _ => call

theorem traces_invoke (i : Invocation) (c : ContextId) {site : CallSiteId} {decl : CallSite}
    (hd : p.callSites[site]? = some decl) (creation : CallSite) :
    Relates (Alike (TracesIn p)) (invoke i c site decl creation) := by
  refine .bind (Reaction.relates_solve (relates_handleOf _)) fun handle => ?_
  refine .bind Reaction.relates_solver fun s => ?_
  split
  · refine .bind (Reaction.relates_solve relates_catalog) fun _ => ?_
    refine .bind (Reaction.relates_solve relates_known) fun _ => ?_
    refine .bind (Reaction.relates_solve relates_siteText) fun _ => ?_
    exact Reaction.relates_solve (traces_warnOf _)
  next target _ =>
    have refused (fault : String → Fault) : Relates (Alike (TracesIn p)) (do
        throw (fault (← siteText i.creation)) : Reaction State Unit) :=
      .bind (Reaction.relates_solve relates_siteText) fun _ => .throw
    cases handle.kind with
    | newInvokeSpecial => exact Reaction.relates_solve (traces_construct i c hd creation target)
    | invokeInterface | invokeVirtual | invokeSpecial =>
      dsimp only
      split
      · refine .bind (Reaction.relates_solve relates_siteText) fun _ => ?_
        refine .bind (Reaction.relates_solve relates_siteText) fun _ => ?_
        exact Reaction.relates_solve (traces_warnOf _)
      next d v _ =>
        refine .bind (Reaction.relates_solve (traces_internVarOf d v)) fun x => ?_
        refine .bind Reaction.relates_solver fun s => ?_
        exact .bind (Reaction.relates_solve (traces_dispatchOn i _)) fun _ =>
          Reaction.relates_modifyOwn
    | invokeStatic => exact Reaction.relates_solve (traces_addCall i none target)
    | getField | getStatic | putField | putStatic => exact refused _

theorem traces_claim (receiver : Option ContextObjectId) (c : ContextId) (site : CallSiteId) :
    Relates (Alike (TracesIn p)) (claim receiver c site) := by
  cases receiver with
  | none => exact .bind (Reaction.relates_solve relates_callSite) fun _ => .pure
  | some o =>
    refine .bind Reaction.relates_solver fun s => ?_
    refine .bind (Reaction.relates_solve relates_known) fun pair => ?_
    refine .bind (Reaction.relates_solve relates_objectAt) fun a => ?_
    split
    · exact .pure
    next description creationSite _ =>
      split
      · exact .pure
      · refine .bind (Reaction.relates_solve relates_callSite) fun creation => ?_
        refine Reaction.traces_callSite fun decl hd => ?_
        split
        · refine .bind (Reaction.relates_solve (traces_internSiteOf c site)) fun cs => ?_
          exact .bind (traces_invoke _ _ hd _) fun _ => .pure
        · exact .pure

/-- A recorded call of a function value is linked. -/
theorem traces_linkCall {edge : CallEdge}
    (recorded : ∃ call, s.calls.Records call ∧ call.edge = edge) :
    Ensures (linkCall edge) s fun _ t => s.Traces t := by
  unfold linkCall
  split
  next tag origin hk =>
    split
    · refine .bind ensures_siteAt ?_
      rintro creation _ ⟨rfl, hcreation⟩
      refine .bind ensures_siteAt ?_
      rintro site _ ⟨rfl, hsite⟩
      refine .bind ensures_methodAt ?_
      rintro callee _ ⟨rfl, hcallee⟩
      refine .bind ensures_callSite ?_
      rintro created _ ⟨rfl, hcreated⟩
      refine .bind ensures_callSite ?_
      rintro decl _ ⟨rfl, hdecl⟩
      refine .bind ensures_methodDecl ?_
      rintro d _ ⟨rfl, hd⟩
      have passed : s.passed? edge.kind site decl d =
          some (Lambda.arguments d creation created site decl) := by
        simp [Solver.passed?, hk, hcreation, hcreated]
      refine .bind (traces_passAll ⟨recorded, hsite, hdecl, hcallee, hd⟩ passed) fun _ t st => ?_
      refine Ensures.mono (P := fun _ u => TracesIn s.program t u) ?_
        fun _ u tu => trans_of Traces st (tu st.program)
      split
      next result heq =>
        obtain ⟨hr, -⟩ := Prod.mk.inj heq
        have assigns : s.program.Assigns result :=
          .site _ decl hdecl (by simp [CallSite.vars, hr])
        exact Relates.forM (fun _ _ => traces_addVarFlowOf assigns _ _ _ _) t
      next => exact .pure (refl_of _ t)
    · exact .pure (refl_of Traces s)
  next => exact .pure (refl_of Traces s)

theorem traces_redispatch (x : ContextVarId) (delta : Objects) :
    Relates (Alike (TracesIn p)) (redispatch x delta) :=
  .bind Reaction.relates_own fun _ => .forM fun i _ =>
    Reaction.relates_solve (traces_dispatchOn i delta)

/-- What function values add can be traced. -/
theorem traces_react {l : State} {e : Event}
    (recorded : ∀ edge, e = .call edge → ∃ call, s.calls.Records call ∧ call.edge = edge) :
    Ensures (plugin.react e) (l, s) fun _ st => s.Traces st.2 := by
  have plain {f : Reaction State Unit} (h : Relates (Alike (TracesIn s.program)) f) :
      Ensures f (l, s) fun _ st => s.Traces st.2 := (h (l, s)).mono fun _ _ st => st rfl
  cases e with
  | method m => exact plain (traces_createValues m)
  | contextMethod cm => exact plain (traces_placeValues cm)
  | call edge => exact ensures_solve (traces_linkCall (recorded edge rfl))
  | unresolved receiver c site =>
    exact plain (.bind (traces_claim receiver c site) fun _ => .pure)
  | objects x delta => exact plain (traces_redispatch x delta)

end Lambda

/-! ### Taint tracking -/

namespace Taint

/-- Transfers on record lead to variables that stand at calls. -/
def Sited (p : Program) (k : Tracking) : Prop :=
  ∀ v target type, (target, type) ∈ k.transfersFrom v → p.Assigns target

theorem sited_initial : Sited p {} := fun v target type mem => by
  simp [Tracking.transfersFrom] at mem

/-- What is new in states of a program can be traced, and what is on record leads to variables that
stand at calls. -/
def SitedTraces (p : Program) (a b : Tracking × Solver) : Prop :=
  a.2.program = p → Sited p a.1 → a.2.Traces b.2 ∧ Sited p b.1

instance : IsPreorder (Tracking × Solver) (SitedTraces p) where
  refl a _ sited := ⟨refl_of Traces a.2, sited⟩
  trans _ _ _ ab bc same sited := by
    obtain ⟨ab, sited⟩ := ab same sited
    obtain ⟨bc, sited⟩ := bc (ab.program.trans same) sited
    exact ⟨trans_of Traces ab bc, sited⟩

theorem sitedTraces_solve {f : Solve α} (h : Relates (TracesIn p) f) :
    Relates (SitedTraces p) (Reaction.solve f : Reaction Tracking α) := fun (_, s) =>
  ensures_solve ((h s).mono fun _ _ st same sited => ⟨st same, sited⟩)

theorem traces_taint (source : CallSiteId) (type : TypeId) :
    Relates (TracesIn p) (taint source type) :=
  .bind (traces_mockOf _ _ _ _) fun o =>
    traces_change (fun s => .object s _ o) fun _ => ⟨rfl, rfl⟩

theorem traces_carry (objects : Objects) (c : ContextId) {target : VarId}
    (assigns : p.Assigns target) (type : TypeId) :
    Relates (TracesIn p) (carry objects c target type) := by
  refine .bind (.mapM fun o _ => .bind relates_objectAt fun _ => .pure) fun origins => ?_
  exact .bind (.mapM fun source _ => traces_taint source type) fun copies =>
    traces_addObjectsInOf assigns c _

theorem sitedTraces_add {source target : VarId} (assigns : p.Assigns target) (type : TypeId) :
    Relates (SitedTraces p) (Reaction.modifyOwn (·.add source target type)) := by
  rintro ⟨k, s⟩
  refine ensures_modifyOwn fun _ sited => ⟨refl_of Traces s, fun v target' type' mem => ?_⟩
  obtain old | ⟨-, same⟩ := mem_transfersFrom_add.1 mem
  · exact sited v target' type' old
  · cases same
    exact assigns

theorem sitedTraces_onCall (rules : Rules) (edge : CallEdge) :
    Relates (SitedTraces p) (onCall rules edge) := by
  refine .bind (sitedTraces_solve relates_siteAt) fun site => ?_
  refine .bind (sitedTraces_solve relates_methodAt) fun callee => ?_
  rintro ⟨k, s⟩
  refine .bind (ensures_lookup ensures_callSite) ?_
  rintro decl _ ⟨rfl, hd⟩ a st run same
  rw [same] at hd
  have assigns {v : VarId} (mem : v ∈ decl.vars) : p.Assigns v := .site _ decl hd mem
  revert same
  revert a st
  refine Relates.mono (R := SitedTraces p) ?_ (fun _ _ h => h) (k, s)
  -- the transfers come last, whether or not there is a result
  cases hr : decl.result
  case' some result =>
    refine .bind (.forM fun type _ => sitedTraces_solve (.bind (traces_mockOf _ _ _ _) fun o => ?_))
      fun _ => ?_
    · exact traces_addObjectInOf (assigns (by simp [CallSite.vars, hr])) _ _ o
  all_goals
    refine .forM fun rule _ => ?_
    split
    next source target heq =>
      obtain ⟨-, ht⟩ := Prod.mk.inj heq
      have assigns := assigns (mem_vars_of_varAt? ht)
      refine .bind (sitedTraces_add assigns rule.type) fun _ => ?_
      refine .bind (.bind .get fun _ => .pure) fun s => ?_
      exact sitedTraces_solve (traces_carry _ _ assigns _)
    · exact .pure

theorem sitedTraces_onObjects (x : ContextVarId) (delta : Objects) :
    Relates (SitedTraces p) (onObjects x delta) := by
  refine .bind (sitedTraces_solve relates_varAt) fun v => ?_
  rintro ⟨k, s⟩
  refine .bind ensures_own ?_
  rintro _ _ ⟨rfl, rfl⟩ a st run same sited
  refine Relates.forM (R := SitedTraces p) ?_ (k, s) a st run same sited
  rintro ⟨target, type⟩ mem
  exact sitedTraces_solve (traces_carry _ _ (sited _ _ _ mem) _)

/-- What taint tracking adds can be traced. -/
theorem sitedTraces_react {rules : Rules} {e : Event} : Relates (SitedTraces p) ((plugin rules).react e) := by
  cases e with
  | method | contextMethod => exact .pure
  | unresolved => exact .bind .pure fun _ => .pure
  | call edge => exact sitedTraces_onCall rules edge
  | objects x delta => exact sitedTraces_onObjects x delta

end Taint
end PointsTo
