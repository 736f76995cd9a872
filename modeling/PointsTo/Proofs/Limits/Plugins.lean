import PointsTo.Proofs.Lambda.Reactions
import PointsTo.Proofs.Limits.Core

/-!
Function values and taint tracking put entities only in contexts that the selector allows. Function
values are in the contexts of whole methods: as made-up objects, they need not be shorter.
-/
namespace PointsTo

open Facts

variable {σ τ α β : Type} {sel : Selector} {E : Fault → Prop} {J : σ → Elements → Prop}
  {st : σ × Solver}

namespace Reaction

/-- The plugins' own state goes on to satisfy `J`, and the solver's contexts stay no longer than the
selector allows, while `f` is computed, whether `f` gives a value or fails with a fault that satisfies
`E`. -/
abbrev Restrains (sel : Selector) (E : Fault → Prop) (J : σ → Elements → Prop) (f : Reaction σ α)
    (st : σ × Solver) (Q : α → σ × Solver → Prop) : Prop :=
  Upholds (fun st => J st.1 st.2.elements ∧ st.2.Bounded sel) (Alike Solver.Deepens)
    (fun fault st => E fault ∧ st.2.Bounded sel) f st Q

/-- What `J` says of the plugins' own state goes on to be so when more gets an id. -/
def Lasts (J : σ → Elements → Prop) : Prop := ∀ own e f, J own e → e.Within f → J own f

theorem restrains_solve (lasts : Lasts J) {f : Solve α} {Q : α → Solver → Prop}
    (h : Confines sel E f st.2 Q) :
    Restrains sel E J (solve f) st fun a st' => Q a st'.2 := by
  rintro ⟨hJ, hs⟩
  refine ends_solve ((h hs).mono (fun a t ⟨ht, st, post⟩ => ?_) fun _ _ => id)
  exact ⟨⟨lasts _ _ _ hJ st, ht⟩, st, post⟩

/-- A lookup in the solver. -/
theorem restrains_look (tolerates : sel.Tolerates E) {f : Solve α} {g : α → Reaction σ β} {P : α → Prop}
    {Q : β → σ × Solver → Prop} (look : Solve.Looks f st.2 P)
    (hg : ∀ a, P a → Restrains sel E J (g a) st Q) : Restrains sel E J (solve f >>= g) st Q := by
  refine Upholds.after (P := P) (D := (· = .unknownId)) (ends_solve (look.mono ?_ ?_))
    (fun fault reason h => tolerates.refused fault reason h.2) hg
  · exact fun a t ⟨same, post⟩ => ⟨Prod.ext rfl same, post⟩
  · exact fun fault t ⟨same, reason⟩ => ⟨Prod.ext rfl same, reason⟩

theorem restrains_own {g : σ → Reaction σ β} {Q : β → σ × Solver → Prop}
    (hg : Restrains sel E J (g st.1) st Q) : Restrains sel E J (own >>= g) st Q := hg

theorem restrains_solver {g : Solver → Reaction σ β} {Q : β → σ × Solver → Prop}
    (hg : Restrains sel E J (g st.2) st Q) : Restrains sel E J (solver >>= g) st Q := hg

theorem restrains_modifyOwn {f : σ → σ} (h : J st.1 st.2.elements → J (f st.1) st.2.elements) :
    Restrains sel E J (modifyOwn f) st fun _ _ => True :=
  .modify fun hs => ⟨⟨h hs.1, hs.2⟩, .refl st.2.elements⟩

/-- What is known of a part of the state is used, and what becomes of it is told of the whole. -/
theorem restrains_focus {K : τ → Elements → Prop} {view : τ → σ} {replace : σ → τ → τ}
    {f : Reaction σ α} {st : τ × Solver} (part : K st.1 st.2.elements → J (view st.1) st.2.elements)
    (whole : ∀ own e, st.2.elements.Within e → K st.1 st.2.elements → J own e →
      K (replace own st.1) e)
    (h : Restrains sel E J f (view st.1, st.2) fun _ _ => True) :
    Restrains sel E K (f.focus view replace) st fun _ _ => True := by
  rintro ⟨hK, hs⟩
  have ends := h ⟨part hK, hs⟩
  unfold Ends at ends ⊢
  rcases run : f (view st.1, st.2) with ⟨_ | a, own, t⟩
  · rw [run] at ends
    simpa only [focus, run] using ends
  · rw [run] at ends
    simp only [focus, run]
    exact ⟨⟨whole _ _ ends.2.1 hK ends.1.1, ends.1.2⟩, ends.2⟩

end Reaction

open Reaction

/-! ### Plugins -/

/-- Reactions to events that put entities only in contexts that the selector allows. -/
structure Plugin.Confined (plugin : Plugin σ) (sel : Selector) (E : Fault → Prop)
    (J : σ → Elements → Prop) : Prop where
  onStart : ∀ st, Restrains sel E J plugin.onStart st fun _ _ => True
  onMethod : ∀ st m, Restrains sel E J (plugin.onMethod m) st fun _ _ => True
  onContextMethod : ∀ st cm, Restrains sel E J (plugin.onContextMethod cm) st fun _ _ => True
  onCall : ∀ st edge, Restrains sel E J (plugin.onCall edge) st fun _ _ => True
  onUnresolved : ∀ st receiver c site, st.2.elements.Allows sel.limit c →
    Restrains sel E J (plugin.onUnresolved receiver c site) st fun _ _ => True
  onObjects : ∀ st x delta, Restrains sel E J (plugin.onObjects x delta) st fun _ _ => True
  onFinish : ∀ st, Restrains sel E J plugin.onFinish st fun _ _ => True

namespace Plugin.Confined

theorem all {plugins : List (Plugin σ)} (h : ∀ q ∈ plugins, q.Confined sel E J) :
    (Plugin.all plugins).Confined sel E J where
  onStart _ := .forM fun q hq u _ => (h q hq).onStart u
  onMethod _ m := .forM fun q hq u _ => (h q hq).onMethod u m
  onContextMethod _ cm := .forM fun q hq u _ => (h q hq).onContextMethod u cm
  onCall _ edge := .forM fun q hq u _ => (h q hq).onCall u edge
  onUnresolved _ receiver c site hc := .foldlM fun q hq _ u su =>
    .bind ((h q hq).onUnresolved u receiver c site (hc.within su)) fun _ _ _ _ => .pure trivial
  onObjects _ x delta := .forM fun q hq u _ => (h q hq).onObjects u x delta
  onFinish _ := .forM fun q hq u _ => (h q hq).onFinish u

theorem focus {plugin : Plugin σ} (h : plugin.Confined sel E J) {K : τ → Elements → Prop}
    {view : τ → σ} {replace : σ → τ → τ} (part : ∀ own e, K own e → J (view own) e)
    (whole : ∀ own own' e f, e.Within f → K own e → J own' f → K (replace own' own) f) :
    (plugin.focus view replace).Confined sel E K where
  onStart _ := restrains_focus (part _ _) (fun _ _ => whole _ _ _ _) (h.onStart _)
  onMethod _ m := restrains_focus (part _ _) (fun _ _ => whole _ _ _ _) (h.onMethod _ m)
  onContextMethod _ cm :=
    restrains_focus (part _ _) (fun _ _ => whole _ _ _ _) (h.onContextMethod _ cm)
  onCall _ edge := restrains_focus (part _ _) (fun _ _ => whole _ _ _ _) (h.onCall _ edge)
  onUnresolved _ receiver c site hc :=
    restrains_focus (part _ _) (fun _ _ => whole _ _ _ _) (h.onUnresolved _ receiver c site hc)
  onObjects _ x delta := restrains_focus (part _ _) (fun _ _ => whole _ _ _ _) (h.onObjects _ x delta)
  onFinish _ := restrains_focus (part _ _) (fun _ _ => whole _ _ _ _) (h.onFinish _)

end Plugin.Confined

/-! ### Function values -/

namespace Lambda

open Solve

/-- Function values may be in any context that the limit `k` allows, and so are the places where the
waiting calls were created. -/
structure State.Fits (k : Nat) (l : State) (e : Elements) : Prop where
  values : ∀ m, ∀ value ∈ l.valuesOf m, e.Roams k value.2
  waiting : ∀ x, ∀ i ∈ l.waitingOn x, e.Allows k i.creationContext

namespace State.Fits

variable {k : Nat} {l : State} {e : Elements}

theorem lasts : Lasts (State.Fits k) := fun _ _ _ h w =>
  ⟨fun m value mem => (h.values m value mem).within w, fun x i mem => (h.waiting x i mem).within w⟩

theorem addValue (h : l.Fits k e) {m : MethodId} {site : CallSiteId} {o : ObjectId}
    (ho : e.Roams k o) : (l.addValue m site o).Fits k e where
  values n value mem := by
    obtain old | ⟨-, rfl⟩ := State.mem_valuesOf_addValue.1 mem
    · exact h.values n value old
    · exact ho
  waiting := h.waiting

theorem wait (h : l.Fits k e) {x : ContextVarId} {i : Invocation}
    (hi : e.Allows k i.creationContext) : (l.wait x i).Fits k e where
  values m value mem := h.values m value (State.valuesOf_wait ▸ mem)
  waiting y j mem := by
    obtain old | ⟨-, rfl⟩ := State.mem_waitingOn_wait.1 mem
    · exact h.waiting y j old
    · exact hi

theorem empty : State.Fits k {} e where
  values m value mem := by simp [State.valuesOf] at mem
  waiting x i mem := by simp [State.waitingOn] at mem

end State.Fits

variable {s : Solver} (tolerates : sel.Tolerates E)
include tolerates

theorem confines_handleOf (creation : CallSiteId) :
    Confines sel E (handleOf creation) s fun _ _ => True := by
  refine .after looks_callSite tolerates.refused fun decl _ => ?_
  split
  · exact .pure trivial
  · refine .after looks_siteText tolerates.refused fun text _ => ?_
    exact .throw fun hs => ⟨tolerates.unsupported _ _, hs⟩

section Invocation

variable {i : Invocation} (hi : s.elements.Allows sel.limit i.creationContext)
include hi

theorem confines_addCall (receiver : Option ContextObjectId) (m : MethodId) :
    Confines sel E (addCall i receiver m) s fun _ _ => True := by
  have queued {c : ContextId} {t : Solver} (st : s.Deepens t) (hc : t.elements.Allows sel.limit c)
      (continues : t.elements.Continues sel i.site c) : Confines sel E (do
        let contextCallee ← change (·.internMethod c m)
        let origin ← change (·.internSite i.creationContext i.creation)
        modify (·.queueCall ⟨i.site, contextCallee, .extension callTag origin⟩) : Solve Unit) t
        fun _ _ => True :=
    .bind (confines_internMethod hc) fun cm u tu hcm =>
      .bind (confines_internSite (hi.within (st.trans tu))) fun origin v uv _ =>
        confines_queueCall ⟨_, uv.methods cm _ hcm, continues.within (tu.trans uv)⟩
  cases receiver with
  | some o =>
    refine .bind (confines_dispatchContext tolerates.toEndures) fun c t st ⟨hc, continues⟩ => ?_
    exact .bind (confines_bindReceiver tolerates.toEndures hc m o) fun _ u tu _ =>
      queued (st.trans tu) (hc.within tu) (continues.within tu)
  | none =>
    exact .bind (confines_calleeContext tolerates.toEndures) fun c t st ⟨hc, continues⟩ =>
      queued st hc continues

theorem confines_dispatchOn (receivers : Objects) :
    Confines sel E (dispatchOn i receivers) s fun _ _ => True := by
  refine .bind (confines_handleOf tolerates i.creation) fun handle t st _ => ?_
  refine .forM fun o _ u tu => .after looks_dispatch? tolerates.refused fun callee _ => ?_
  cases callee with
  | none => exact .pure trivial
  | some callee => exact confines_addCall tolerates (hi.within (st.trans tu)) _ _

theorem confines_construct {c : ContextId} (hc : s.elements.Allows sel.limit c)
    (decl creation : CallSite) (target : MethodId) :
    Confines sel E (construct i c decl creation target) s fun _ _ => True := by
  refine .after looks_methodDecl tolerates.refused fun d _ => ?_
  refine .bind confines_mock fun a t st made => ?_
  refine .bind (confines_internObject (made.houses (hc.within st))) fun o u tu _ => ?_
  have su := st.trans tu
  have called {v : Solver} (uv : u.Deepens v) :
      Confines sel E (addCall i (some o) target) v fun _ _ => True :=
    confines_addCall tolerates (hi.within (su.trans uv)) _ _
  cases decl.result with
  | none => exact called (.refl u.elements)
  | some result =>
    refine .bind (confines_internVar (hc.within su)) fun x v uv _ => ?_
    exact .bind (confines_addVarObject x o) fun _ w vw _ => called (uv.trans vw)

end Invocation

/-! ### Events -/

theorem restrains_createValues {st : State × Solver} (m : MethodId) :
    Restrains sel E (State.Fits sel.limit) (createValues m) st fun _ _ => True := by
  refine restrains_look tolerates looks_methodDecl fun d _ => .forM fun statement _ u su => ?_
  split
  next site =>
    refine restrains_look tolerates looks_callSite fun decl _ => ?_
    split
    · split
      · exact .bind (restrains_solve State.Fits.lasts confines_mock) fun o v uv made =>
          restrains_modifyOwn fun hl => hl.addValue made
      · exact .pure trivial
    · exact .pure trivial
  next => exact .pure trivial

theorem restrains_placeValues {st : State × Solver} (cm : ContextMethodId) :
    Restrains sel E (State.Fits sel.limit) (placeValues cm) st fun _ _ => True := fun hs => by
  refine restrains_look tolerates looks_methodAt (fun m hm => restrains_own ?_) hs
  have hc := hs.2.elements.methods cm m hm
  refine .forM fun (site, o) mem u su => ?_
  refine restrains_look tolerates looks_callSite fun decl _ => ?_
  split
  · exact restrains_solve State.Fits.lasts (confines_addObjectIn (hc.within su)
      (((hs.1.values _ _ mem).within su).houses (hc.within su)))
  · exact .pure trivial

theorem restrains_invoke {st : State × Solver} {i : Invocation} {c : ContextId}
    (hi : st.2.elements.Allows sel.limit i.creationContext) (hc : st.2.elements.Allows sel.limit c)
    (site : CallSiteId) (decl creation : CallSite) :
    Restrains sel E (State.Fits sel.limit) (invoke i c site decl creation) st fun _ _ => True := by
  refine .bind (restrains_solve State.Fits.lasts (confines_handleOf tolerates _)) fun handle t st' _ => ?_
  have hi := hi.within st'
  have hc := hc.within st'
  refine restrains_solver ?_
  split
  · refine restrains_look tolerates looks_catalog fun _ _ => ?_
    refine restrains_look tolerates looks_known fun _ _ => ?_
    refine restrains_look tolerates looks_siteText fun _ _ => ?_
    exact restrains_solve State.Fits.lasts (confines_warn _)
  next target _ =>
    cases handle.kind with
    | newInvokeSpecial =>
      exact restrains_solve State.Fits.lasts (confines_construct tolerates hi hc _ _ _)
    | invokeInterface | invokeVirtual | invokeSpecial =>
      dsimp only
      split
      · refine restrains_look tolerates looks_siteText fun _ _ => ?_
        refine restrains_look tolerates looks_siteText fun _ _ => ?_
        exact restrains_solve State.Fits.lasts (confines_warn _)
      next d v received =>
        -- the receiver was captured where the value was created, or is passed where it is called
        have hd : t.2.elements.Allows sel.limit d := by
          unfold receiverOf? at received
          split at received <;> cases received
          · exact hi
          · exact hc
        refine .bind (restrains_solve State.Fits.lasts (confines_internVar hd)) fun x u tu _ => ?_
        refine restrains_solver (.bind (restrains_solve State.Fits.lasts
          (confines_dispatchOn tolerates (hi.within tu) _)) fun _ v uv _ => ?_)
        exact restrains_modifyOwn fun hl => hl.wait (hi.within (tu.trans uv))
    | invokeStatic => exact restrains_solve State.Fits.lasts (confines_addCall tolerates hi _ _)
    | getField | getStatic | putField | putStatic =>
      refine restrains_look tolerates looks_siteText fun text _ => ?_
      exact .throw fun hs => ⟨tolerates.unsupported _ _, hs.2⟩

theorem restrains_claim {st : State × Solver} (receiver : Option ContextObjectId) {c : ContextId}
    (hc : st.2.elements.Allows sel.limit c) (site : CallSiteId) :
    Restrains sel E (State.Fits sel.limit) (claim receiver c site) st fun _ _ => True := fun hs => by
  cases receiver with
  | none => exact restrains_look tolerates looks_callSite (fun _ _ => .pure trivial) hs
  | some o =>
    refine restrains_solver (restrains_look tolerates looks_known fun pair hpair => ?_) hs
    refine restrains_look tolerates looks_objectAt fun a _ => ?_
    split
    · exact .pure trivial
    · split
      · exact .pure trivial
      · refine restrains_look tolerates looks_callSite fun creation _ => ?_
        refine restrains_look tolerates looks_callSite fun decl _ => ?_
        split
        · refine .bind (restrains_solve State.Fits.lasts (confines_internSite hc)) fun cs u su _ => ?_
          have created := (hs.2.elements.objects o pair hpair).allows
          exact .bind (restrains_invoke tolerates (created.within su) (hc.within su) _ _ _)
            fun _ _ _ _ => .pure trivial
        · exact .pure trivial

theorem confines_linkCall (edge : CallEdge) :
    Confines sel E (linkCall edge) s fun _ _ => True := fun hs => by
  unfold linkCall
  split
  next tag origin _ =>
    split
    · refine Upholds.after looks_siteAt tolerates.refused (fun creation hcreation => ?_) hs
      refine .after looks_siteAt tolerates.refused fun site hsite => ?_
      refine .after looks_methodAt tolerates.refused fun callee hcallee => ?_
      refine .after looks_callSite tolerates.refused fun created _ => ?_
      refine .after looks_callSite tolerates.refused fun decl _ => ?_
      refine .after looks_methodDecl tolerates.refused fun target _ => ?_
      have hc := hs.elements.sites _ _ hsite
      have hd := hs.elements.methods _ _ hcallee
      refine .bind (.forM fun ((ac, arg), param) mem t st => ?_) fun _ t st _ => ?_
      · have argument : s.elements.Allows sel.limit ac := by
          obtain ⟨same, -⟩ | ⟨same, -⟩ := mem_arguments (List.of_mem_zip mem).1
          · exact (show ac = creation.context from same) ▸ hs.elements.sites _ _ hcreation
          · exact (show ac = site.context from same) ▸ hc
        exact confines_addVarFlow tolerates.toEndures (argument.within st) (hd.within st)
      · split
        · exact .forM fun _ _ u tu => confines_addVarFlow tolerates.toEndures (hd.within (st.trans tu))
            (hc.within (st.trans tu))
        · exact .pure trivial
    · exact Upholds.pure trivial hs
  next => exact Upholds.pure trivial hs

theorem restrains_redispatch {st : State × Solver} (x : ContextVarId) (delta : Objects) :
    Restrains sel E (State.Fits sel.limit) (redispatch x delta) st fun _ _ => True := fun hs => by
  refine restrains_own (.forM fun i mem u su => ?_) hs
  exact restrains_solve State.Fits.lasts
    (confines_dispatchOn tolerates ((hs.1.waiting x i mem).within su) delta)

theorem confined_plugin : plugin.Confined sel E (State.Fits sel.limit) where
  onStart _ := .pure trivial
  onMethod _ m := restrains_createValues tolerates m
  onContextMethod _ cm := restrains_placeValues tolerates cm
  onCall _ edge := restrains_solve State.Fits.lasts (confines_linkCall tolerates edge)
  onUnresolved _ receiver _ site hc := restrains_claim tolerates receiver hc site
  onObjects _ x delta := restrains_redispatch tolerates x delta
  onFinish _ := .pure trivial

end Lambda

/-! ### Taint tracking -/

namespace Taint

open Solve

/-- Nothing has to be known of the transfers. -/
def Tracking.Fits (_ : Tracking) (_ : Elements) : Prop := True

theorem Tracking.lasts_fits : Lasts Tracking.Fits := fun _ _ _ _ _ => trivial

variable {s : Solver} (tolerates : sel.Tolerates E)

/-- Tainted values are in the empty context. -/
theorem confines_taint (source : CallSiteId) (type : TypeId) :
    Confines sel E (taint source type) s fun _ _ => True :=
  .bind confines_mock fun _ _ _ made => confines_internObject (made.houses Elements.allows_emptyId)

include tolerates

theorem confines_carry (objects : Objects) {c : ContextId} (hc : s.elements.Allows sel.limit c)
    (target : VarId) (type : TypeId) :
    Confines sel E (carry objects c target type) s fun _ _ => True := by
  refine .bind (.mapM fun o _ t _ => .after looks_objectAt tolerates.refused fun _ _ =>
    .pure trivial) fun origins t st _ => ?_
  refine .bind (.mapM fun source _ u _ => confines_taint source type) fun copies u tu _ => ?_
  exact confines_addObjectsIn (hc.within (st.trans tu)) _

/-- The transfers of a call are carried out. -/
theorem restrains_transfers {st : Tracking × Solver} {c : ContextId}
    (hc : st.2.elements.Allows sel.limit c) (decl : CallSite)
    (transfers : List (TransferRule MethodId TypeId)) :
    Restrains sel E Tracking.Fits (transfers.forM fun rule => do
      if let (some source, some target) := (varAt? decl rule.source, varAt? decl rule.target) then
        Reaction.modifyOwn (·.add source target rule.type)
        let objects := (← Reaction.solver).objectsIn c source
        carry objects c target rule.type) st fun _ _ => True := by
  refine .forM fun rule _ u su => ?_
  split
  · refine .bind (restrains_modifyOwn fun _ => trivial) fun _ v uv _ => restrains_solver ?_
    exact restrains_solve Tracking.lasts_fits (confines_carry tolerates _
      (hc.within (Elements.Within.trans su uv)) _ _)
  · exact .pure trivial

theorem restrains_onCall {st : Tracking × Solver} (rules : Rules) (edge : CallEdge) :
    Restrains sel E Tracking.Fits (onCall rules edge) st fun _ _ => True := fun hs => by
  refine restrains_look tolerates looks_siteAt (fun site hsite => ?_) hs
  have hc := hs.2.elements.sites _ _ hsite
  refine restrains_look tolerates looks_methodAt fun callee _ => ?_
  refine restrains_look tolerates looks_callSite fun decl _ => ?_
  -- the transfers come last, whether or not there is a result
  have transferred {u : Tracking × Solver} (su : Alike Solver.Deepens st u) :
      Restrains sel E Tracking.Fits _ u fun _ _ => True :=
    restrains_transfers tolerates (hc.within su) decl (rules.transfersOf callee.entity)
  cases decl.result with
  | none => exact transferred (.refl st.2.elements)
  | some result =>
    refine .bind (.forM fun type _ u su => ?_) fun _ u su _ => transferred su
    have sourced : Confines sel E (do
        let o ← change (·.mock taintedValue site.entity type none)
        modify (·.addObjectIn site.context result ContextTable.emptyId o)) u.2 fun _ _ => True :=
      .bind confines_mock fun o v uv made =>
        confines_addObjectIn (hc.within (Elements.Within.trans su uv))
          (made.houses Elements.allows_emptyId)
    exact restrains_solve Tracking.lasts_fits sourced

theorem restrains_onObjects {st : Tracking × Solver} (x : ContextVarId) (delta : Objects) :
    Restrains sel E Tracking.Fits (onObjects x delta) st fun _ _ => True := fun hs => by
  refine restrains_look tolerates looks_varAt (fun v hx => restrains_own ?_) hs
  have hc := hs.2.elements.vars x v hx
  exact .forM fun (target, type) _ u su =>
    restrains_solve Tracking.lasts_fits (confines_carry tolerates delta (hc.within su) target type)

theorem confined_plugin (rules : Rules) : (plugin rules).Confined sel E Tracking.Fits where
  onStart _ := .pure trivial
  onMethod _ _ := .pure trivial
  onContextMethod _ _ := .pure trivial
  onCall _ edge := restrains_onCall tolerates rules edge
  onUnresolved _ _ _ _ _ := .pure trivial
  onObjects _ x delta := restrains_onObjects tolerates x delta
  onFinish _ := restrains_solver (restrains_look tolerates looks_known fun _ _ =>
    restrains_solve Tracking.lasts_fits (confines_store _ _))

end Taint

end PointsTo
