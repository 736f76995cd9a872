import PointsTo.Extensions
import PointsTo.Proofs.Runs

/-!
The reactions of several plugins to an event: what they ensure one after the other, the handing out of
the event ensures, too.
-/
namespace PointsTo

variable {σ τ α : Type}

/-- What a plugin does about an event, whether or not it takes care of a call. -/
def Plugin.react (p : Plugin σ) : Event → Reaction σ Unit
  | .method m => p.onMethod m
  | .contextMethod cm => p.onContextMethod cm
  | .call edge => p.onCall edge
  | .unresolved receiver context site => do let _ ← p.onUnresolved receiver context site
  | .objects x delta => p.onObjects x delta

namespace Reaction

/-- A reaction of a part of the state leaves the rest of it alone. -/
theorem ensures_focus {view : τ → σ} {replace : σ → τ → τ} {f : Reaction σ α} {own : τ}
    {s : Solver} {Q : α → τ × Solver → Prop}
    (h : Ensures f (view own, s) fun a st => Q a (replace st.1 own, st.2)) :
    Ensures (f.focus view replace) (own, s) Q := by
  rintro a ⟨own', t⟩ run
  rcases hf : f (view own, s) with ⟨r, part, u⟩
  simp only [focus, hf] at run
  cases run
  exact h a (part, t) hf

/-- The state with what a part of it has become, and the result, of a reaction of the part. -/
theorem focus_bind_pure {β : Type} {view : τ → σ} {replace : σ → τ → τ} (f : Reaction σ α) (b : β) :
    (do let _ ← f.focus view replace; return b : Reaction τ β) =
      (do let _ ← f; return b : Reaction σ β).focus view replace := by
  funext ⟨own, s⟩
  rw [Ensures.bind_run, focus, focus, Ensures.bind_run]
  rcases f (view own, s) with ⟨_ | _, part, u⟩ <;> rfl

end Reaction

theorem Plugin.react_focus {view : τ → σ} {replace : σ → τ → τ} (p : Plugin σ) (e : Event) :
    (p.focus view replace).react e = (p.react e).focus view replace := by
  cases e with
  | unresolved receiver context site => exact Reaction.focus_bind_pure _ _
  | _ => rfl

theorem Plugin.onFinish_focus {view : τ → σ} {replace : σ → τ → τ} (p : Plugin σ) :
    (p.focus view replace).onFinish = p.onFinish.focus view replace := rfl

namespace Analysis

/-- Asking all plugins about a call is letting all of them react. -/
theorem ensures_ask {plugins : List (Plugin σ)} {receiver : Option ContextObjectId}
    {context : ContextId} {site : CallSiteId} {st : σ × Solver} {Q : σ × Solver → Prop}
    (h : Ensures (plugins.forM (·.react (.unresolved receiver context site))) st fun _ => Q)
    (claimed : Bool) :
    Ensures (plugins.foldlM (fun claimed p => do
      let claims ← p.onUnresolved receiver context site
      return claimed || claims) claimed) st fun _ => Q := by
  induction plugins generalizing st claimed with
  | nil => exact .pure (h ⟨⟩ st rfl)
  | cons p plugins ih =>
    rw [List.foldlM_cons]
    intro result st' run
    rw [Ensures.bind_run, Ensures.bind_run] at run
    split at run
    next claims u asked =>
      split at asked
      next answer v answered =>
        cases asked
        refine ih (fun _ w rest => h ⟨⟩ w ?_) _ _ _ run
        change ((do let _ ← p.onUnresolved receiver context site) >>= fun _ =>
          plugins.forM (·.react (.unresolved receiver context site))) st = _
        rw [Ensures.bind_run, Ensures.bind_run, answered]
        exact rest
      next => cases asked
    next => cases run

/-- An event that is handed to several plugins: they react in turn, and perhaps the call is
refused. -/
theorem ensures_dispatch_all {plugins : List (Plugin σ)} {e : Event} {st : σ × Solver}
    {Q : σ × Solver → Prop} (h : Ensures (plugins.forM (·.react e)) st fun _ => Q)
    (warned : ∀ own s text, Q (own, s) → Q (own, s.warn text)) :
    Ensures (dispatch (.all plugins) e) st fun _ => Q := by
  cases e with
  | unresolved receiver context site =>
    refine .bind (ensures_ask h false) ?_
    rintro claimed ⟨own, s⟩ hQ
    split
    · refine ensures_solve (ensures_reject.mono ?_)
      rintro _ _ ⟨text, rfl⟩
      exact warned own s text hQ
    · exact .pure hQ
  | _ => exact h

end Analysis

/-- The plugins that are on react in turn: first function values, then taint tracking. -/
theorem Configuration.ensures_forM {c : Configuration} {f : Plugin Extensions → Reaction Extensions Unit}
    {st : Extensions × Solver} {P Q : Extensions × Solver → Prop}
    (lambda : c.lambda = true → Ensures (f Extensions.lambdaPlugin) st fun _ => P)
    (noLambda : c.lambda = false → P st)
    (taint : ∀ rules, c.rules = some rules → ∀ st', P st' →
      Ensures (f (Extensions.taintPlugin rules)) st' fun _ => Q)
    (noTaint : c.rules = none → ∀ st', P st' → Q st') :
    Ensures (c.plugins.forM f) st fun _ => Q := by
  change Ensures (forM ((if c.lambda then [Extensions.lambdaPlugin] else []) ++
    (c.rules.map Extensions.taintPlugin).toList) f) st _
  rw [List.forM_append]
  refine .bind (P := fun _ => P) ?_ fun _ st' hP => ?_
  · cases on : c.lambda with
    | true => exact .bind (lambda on) fun _ _ done => .pure done
    | false => exact .pure (noLambda on)
  · cases on : c.rules with
    | some rules => exact .bind (taint rules on st' hP) fun _ _ done => .pure done
    | none => exact .pure (noTaint on st' hP)

/-- What an event leads to: function values react first, then taint tracking, and a call that nobody
takes care of is reported. -/
theorem Configuration.ensures_dispatch {c : Configuration} {e : Event} {own : Extensions} {s : Solver}
    {P Q : Extensions → Solver → Prop}
    (lambda : c.lambda = true → Ensures (Lambda.plugin.react e) (own.lambda, s) fun _ st =>
      P { own with lambda := st.1 } st.2)
    (noLambda : c.lambda = false → P own s)
    (taint : ∀ rules, c.rules = some rules → ∀ own' t, P own' t →
      Ensures ((Taint.plugin rules).react e) (own'.taint, t) fun _ st =>
        Q { own' with taint := st.1 } st.2)
    (noTaint : c.rules = none → ∀ own' t, P own' t → Q own' t)
    (warned : ∀ own' t text, Q own' t → Q own' (t.warn text)) :
    Ensures (Analysis.dispatch (.all c.plugins) e) (own, s) fun _ st => Q st.1 st.2 := by
  refine Analysis.ensures_dispatch_all (Q := fun st => Q st.1 st.2) ?_ warned
  refine ensures_forM (P := fun st => P st.1 st.2) (fun on => ?_) noLambda ?_ ?_
  · rw [Extensions.lambdaPlugin, Plugin.react_focus]
    exact Reaction.ensures_focus (lambda on)
  · rintro rules on ⟨own', t⟩ before
    rw [Extensions.taintPlugin, Plugin.react_focus]
    exact Reaction.ensures_focus (taint rules on own' t before)
  · exact fun off st before => noTaint off st.1 st.2 before

end PointsTo
