import PointsTo.Proofs.Entries

/-!
The plugins that come with the analysis change the solver by its entry points only, and make no other
objects than their own.
-/
namespace PointsTo

open Solver

/-! ### Function values -/

namespace Lambda

/-- The objects that function values bring along. -/
def Brings (a : AbstractObject) : Prop :=
  a.isMock functionValue = true ∨ a.isMock constructedObject = true

theorem relates_handleOf {R : Solver → Solver → Prop} [IsPreorder Solver R] (creation : CallSiteId) :
    Relates R (handleOf creation) := by
  refine .bind Solve.relates_callSite fun decl => ?_
  split
  · exact .pure
  · exact .bind Solve.relates_siteText fun _ => .throw

theorem entered_addCall (i : Invocation) (receiver : Option ContextObjectId) (callee : MethodId) :
    Relates (EnteredBy Brings) (addCall i receiver callee) := by
  have queued (c : ContextId) : Relates (EnteredBy Brings) (do
      let contextCallee ← Solve.change (·.internMethod c callee)
      let origin ← Solve.change (·.internSite i.creationContext i.creation)
      modify (·.queueCall ⟨i.site, contextCallee, .extension callTag origin⟩) : Solve Unit) :=
    .bind (Solve.entered_internMethod c callee) fun _ =>
      .bind (Solve.entered_internSite i.creationContext i.creation) fun _ => Solve.entered_queueCall _
  cases receiver with
  | none => exact .bind (Solve.entered_settle _) fun c => queued c
  | some o =>
    exact .bind (Solve.entered_settle _) fun c => .bind (Solve.entered_bindReceiver c callee o)
      fun _ => queued c

theorem entered_dispatchOn (i : Invocation) (receivers : Objects) :
    Relates (EnteredBy Brings) (dispatchOn i receivers) := by
  refine .bind (relates_handleOf i.creation) fun handle => .forM fun o _ => ?_
  refine .bind Solve.relates_dispatch? fun callee => ?_
  cases callee with
  | none => exact .pure
  | some callee => exact entered_addCall i (some o) callee

theorem entered_createValues (m : MethodId) :
    Relates (Alike (EnteredBy Brings)) (createValues m) := by
  refine .bind (Reaction.relates_solve Solve.relates_methodDecl) fun d => .forM fun statement _ => ?_
  split
  next site =>
    refine .bind (Reaction.relates_solve Solve.relates_callSite) fun decl => ?_
    split
    · split
      · refine .bind (Reaction.relates_solve ?_) fun _ => Reaction.relates_modifyOwn
        exact Solve.entered_mock _ _ _ _ (.inl (beq_self_eq_true _))
      · exact .pure
    · exact .pure
  next => exact .pure

theorem entered_placeValues (cm : ContextMethodId) :
    Relates (Alike (EnteredBy Brings)) (placeValues cm) := by
  refine .bind (Reaction.relates_solve Solve.relates_methodAt) fun m => ?_
  refine .bind Reaction.relates_own fun own => .forM fun (site, o) _ => ?_
  refine .bind (Reaction.relates_solve Solve.relates_callSite) fun decl => ?_
  split
  · exact Reaction.relates_solve (Solve.entered_addObjectIn _ _ _ _)
  · exact .pure

theorem entered_construct (i : Invocation) (c : ContextId) (decl creation : CallSite)
    (target : MethodId) : Relates (EnteredBy Brings) (construct i c decl creation target) := by
  refine .bind Solve.relates_methodDecl fun d => ?_
  refine .bind (Solve.entered_mock _ _ _ _ (.inr (beq_self_eq_true _))) fun a => ?_
  refine .bind (Solve.entered_internObject c a) fun o => ?_
  have call := entered_addCall i (some o) target
  cases decl.result with
  | none => exact call
  | some result =>
    exact .bind (Solve.entered_internVar c result) fun x =>
      .bind (Solve.entered_addObjectOf (.var x) o) fun _ => call

theorem entered_invoke (i : Invocation) (c : ContextId) (site : CallSiteId)
    (decl creation : CallSite) :
    Relates (Alike (EnteredBy Brings)) (invoke i c site decl creation) := by
  refine .bind (Reaction.relates_solve (relates_handleOf _)) fun handle => ?_
  refine .bind Reaction.relates_solver fun s => ?_
  split
  · refine .bind (Reaction.relates_solve Solve.relates_catalog) fun _ => ?_
    refine .bind (Reaction.relates_solve Solve.relates_known) fun _ => ?_
    refine .bind (Reaction.relates_solve Solve.relates_siteText) fun _ => ?_
    exact Reaction.relates_solve (Solve.entered_warn _)
  next target _ =>
    have refused (fault : String → Fault) : Relates (Alike (EnteredBy Brings)) (do
        throw (fault (← Solve.siteText i.creation)) : Reaction State Unit) :=
      .bind (Reaction.relates_solve Solve.relates_siteText) fun _ => .throw
    cases handle.kind with
    | newInvokeSpecial => exact Reaction.relates_solve (entered_construct i c decl creation target)
    | invokeInterface | invokeVirtual | invokeSpecial =>
      dsimp only
      split
      · refine .bind (Reaction.relates_solve Solve.relates_siteText) fun _ => ?_
        refine .bind (Reaction.relates_solve Solve.relates_siteText) fun _ => ?_
        exact Reaction.relates_solve (Solve.entered_warn _)
      next d v _ =>
        refine .bind (Reaction.relates_solve (Solve.entered_internVar d v)) fun x => ?_
        refine .bind Reaction.relates_solver fun s => ?_
        exact .bind (Reaction.relates_solve (entered_dispatchOn i _)) fun _ =>
          Reaction.relates_modifyOwn
    | invokeStatic => exact Reaction.relates_solve (entered_addCall i none target)
    | getField | getStatic | putField | putStatic => exact refused _

theorem entered_claim (receiver : Option ContextObjectId) (c : ContextId) (site : CallSiteId) :
    Relates (Alike (EnteredBy Brings)) (claim receiver c site) := by
  cases receiver with
  | none => exact .bind (Reaction.relates_solve Solve.relates_callSite) fun _ => .pure
  | some o =>
    refine .bind Reaction.relates_solver fun s => ?_
    refine .bind (Reaction.relates_solve Solve.relates_known) fun pair => ?_
    refine .bind (Reaction.relates_solve Solve.relates_objectAt) fun a => ?_
    split
    · exact .pure
    next description creationSite _ =>
      split
      · exact .pure
      · refine .bind (Reaction.relates_solve Solve.relates_callSite) fun creation => ?_
        refine .bind (Reaction.relates_solve Solve.relates_callSite) fun decl => ?_
        split
        · refine .bind (Reaction.relates_solve ?_) fun cs => ?_
          · exact Solve.entered_internSite c site
          · exact .bind (entered_invoke _ _ _ _ _) fun _ => .pure
        · exact .pure

theorem entered_linkCall (edge : CallEdge) : Relates (EnteredBy Brings) (linkCall edge) := by
  unfold linkCall
  split
  next tag origin _ =>
    split
    · refine .bind Solve.relates_siteAt fun creation => .bind Solve.relates_siteAt fun site => ?_
      refine .bind Solve.relates_methodAt fun callee => ?_
      refine .bind Solve.relates_callSite fun created => .bind Solve.relates_callSite fun decl => ?_
      refine .bind Solve.relates_methodDecl fun target => ?_
      refine .bind (.forM fun _ _ => Solve.entered_addVarFlow _ _ _ _ _) fun _ => ?_
      split
      · exact .forM fun _ _ => Solve.entered_addVarFlow _ _ _ _ _
      · exact .pure
    · exact .pure
  next => exact .pure

theorem entered_redispatch (v : ContextVarId) (delta : Objects) :
    Relates (Alike (EnteredBy Brings)) (redispatch v delta) :=
  .bind Reaction.relates_own fun _ => .forM fun i _ =>
    Reaction.relates_solve (entered_dispatchOn i delta)

theorem public_plugin : plugin.Public where
  onStart := .pure
  onMethod m := Reaction.public_of_enteredBy (entered_createValues m)
  onContextMethod cm := Reaction.public_of_enteredBy (entered_placeValues cm)
  onCall edge := Reaction.public_of_enteredBy (Reaction.relates_solve (entered_linkCall edge))
  onUnresolved receiver c site := Reaction.public_of_enteredBy (entered_claim receiver c site)
  onObjects x delta := Reaction.public_of_enteredBy (entered_redispatch x delta)
  onFinish := .pure

end Lambda

/-! ### Taint tracking -/

namespace Taint

/-- The tainted values. -/
def Brings (a : AbstractObject) : Prop := a.isMock taintedValue = true

theorem entered_carry (objects : Objects) (c : ContextId) (target : VarId) (type : TypeId) :
    Relates (EnteredBy Brings) (carry objects c target type) := by
  refine .bind (.mapM fun o _ => .bind Solve.relates_objectAt fun _ => .pure) fun origins => ?_
  refine .bind (.mapM fun source _ => ?_) fun copies => ?_
  · exact .bind (Solve.entered_mock _ _ _ _ (beq_self_eq_true _)) fun a =>
      Solve.entered_internObject _ a
  · exact Solve.entered_addObjectsIn _ _ _

theorem entered_onCall (rules : Rules) (edge : CallEdge) :
    Relates (Alike (EnteredBy Brings)) (onCall rules edge) := by
  refine .bind (Reaction.relates_solve Solve.relates_siteAt) fun site => ?_
  refine .bind (Reaction.relates_solve Solve.relates_methodAt) fun callee => ?_
  refine .bind (Reaction.relates_solve Solve.relates_callSite) fun decl => ?_
  -- the transfers come last, whether or not there is a result
  cases decl.result
  case' some result =>
    refine .bind (.forM fun type _ => Reaction.relates_solve ?_) fun _ => ?_
    · exact .bind (Solve.entered_mock _ _ _ _ (beq_self_eq_true _)) fun o =>
        Solve.entered_addObjectIn _ _ _ o
  all_goals
    refine .forM fun rule _ => ?_
    split
    · exact .bind Reaction.relates_modifyOwn fun _ => .bind Reaction.relates_solver fun s =>
        Reaction.relates_solve (entered_carry _ _ _ _)
    · exact .pure

theorem entered_onObjects (x : ContextVarId) (delta : Objects) :
    Relates (Alike (EnteredBy Brings)) (onObjects x delta) :=
  .bind (Reaction.relates_solve Solve.relates_varAt) fun _ => .bind Reaction.relates_own fun _ =>
    .forM fun (target, type) _ => Reaction.relates_solve (entered_carry delta _ target type)

theorem public_plugin (rules : Rules) : (plugin rules).Public where
  onStart := .pure
  onMethod _ := .pure
  onContextMethod _ := .pure
  onCall edge := Reaction.public_of_enteredBy (entered_onCall rules edge)
  onUnresolved _ _ _ := .pure
  onObjects x delta := Reaction.public_of_enteredBy (entered_onObjects x delta)
  onFinish := Reaction.public_of_enteredBy (M := Brings) <|
    .bind Reaction.relates_solver fun _ =>
      .bind (Reaction.relates_solve Solve.relates_known) fun _ =>
        Reaction.relates_solve (Solve.entered_modify (fun s => .store s _ _) fun _ => rfl)

end Taint

/-- Whichever plugins are on, they use entry points only. -/
theorem Configuration.public_plugins (c : Configuration) : ∀ p ∈ c.plugins, p.Public := by
  intro p hp
  unfold plugins at hp
  obtain hp | hp := List.mem_append.1 hp
  · split at hp
    · cases List.mem_singleton.1 hp
      exact Lambda.public_plugin.focus
    · cases hp
  · obtain ⟨rules, -, rfl⟩ := Option.map_eq_some_iff.1 (Option.mem_toList.1 hp)
    exact (Taint.public_plugin rules).focus

end PointsTo
