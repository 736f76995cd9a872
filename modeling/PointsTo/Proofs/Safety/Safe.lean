import PointsTo.Proofs.Precision

/-!
Total correctness of computations that may fail: such a computation gives a value as it promises, or
it fails for a reason that lies in the program or in the settings.
-/
namespace PointsTo

variable {σ τ α β : Type}

/-- Faults that neither the program nor the settings account for: an id that names nothing, and a
state that should not arise. -/
def Fault.IsInternal : Fault → Prop
  | .unknownId | .invariantViolation _ => True
  | _ => False

/-- From the state `s`, `f` gives a value that satisfies `Q` together with the new state, or it fails
with a fault that is not internal. -/
def Safe (f : ExceptT Fault (StateM σ) α) (s : σ) (Q : α → σ → Prop) : Prop :=
  match f s with
  | (.ok a, t) => Q a t
  | (.error fault, _) => ¬ fault.IsInternal

namespace Safe

variable {f : ExceptT Fault (StateM σ) α} {g : α → ExceptT Fault (StateM σ) β} {s : σ}
  {P Q : α → σ → Prop} {R : β → σ → Prop}

theorem ensures (h : Safe f s Q) : Ensures f s Q := fun a t run => by
  rw [Safe, run] at h
  exact h

theorem not_isInternal (h : Safe f s Q) {fault : Fault} {t : σ} (run : f s = (.error fault, t)) :
    ¬ fault.IsInternal := by
  rw [Safe, run] at h
  exact h

theorem mono (h : Safe f s P) (imp : ∀ a t, P a t → Q a t) : Safe f s Q := by
  unfold Safe at h ⊢
  split at h
  next a t _ => exact imp a t h
  next => exact h

theorem pure {a : α} (h : Q a s) : Safe (Pure.pure a) s Q := h

theorem throw {fault : Fault} (external : ¬ fault.IsInternal) :
    Safe (MonadExcept.throw fault) s Q := external

theorem bind (hf : Safe f s P) (hg : ∀ a t, P a t → Safe (g a) t R) : Safe (f >>= g) s R := by
  unfold Safe at hf ⊢
  rw [Ensures.bind_run]
  rcases run : f s with ⟨_ | a, t⟩
  · rwa [run] at hf
  · rw [run] at hf
    exact hg a t hf

theorem get {Q : σ → σ → Prop} (h : Q s s) : Safe MonadState.get s Q := h

theorem set {t : σ} {Q : PUnit → σ → Prop} (h : Q ⟨⟩ t) : Safe (MonadStateOf.set t) s Q := h

theorem modifyGet {h : σ → α × σ} (post : Q (h s).1 (h s).2) :
    Safe (MonadStateOf.modifyGet h) s Q := post

theorem modify {h : σ → σ} {Q : PUnit → σ → Prop} (post : Q ⟨⟩ (h s)) : Safe (modify h) s Q :=
  post

/-- A loop whose rounds keep a property of the state keeps it. -/
theorem forM {l : List α} {f : α → ExceptT Fault (StateM σ) PUnit} {I : σ → Prop} (start : I s)
    (round : ∀ a ∈ l, ∀ t, I t → Safe (f a) t fun _ => I) : Safe (l.forM f) s fun _ => I := by
  induction l generalizing s with
  | nil => exact pure start
  | cons a l ih =>
    exact bind (round a (by simp) s start) fun _ _ kept =>
      ih kept fun b hb => round b (by simp [hb])

/-- The same for a loop that collects values, of which each has a property that lasts. -/
theorem mapM {l : List α} {f : α → ExceptT Fault (StateM σ) β} {I : σ → Prop} {D : β → σ → Prop}
    (start : I s) (round : ∀ a ∈ l, ∀ t, I t →
      Safe (f a) t fun b u => I u ∧ D b u ∧ ∀ c, D c t → D c u) :
    Safe (l.mapM f) s fun bs t => I t ∧ (∀ b ∈ bs, D b t) ∧ ∀ c, D c s → D c t := by
  induction l generalizing s with
  | nil => exact pure ⟨start, by simp, fun _ => id⟩
  | cons a l ih =>
    rw [List.mapM_cons]
    refine bind (round a (by simp) s start) fun b t ⟨kept, made, st⟩ => ?_
    refine bind (ih kept fun a' h => round a' (by simp [h])) fun bs u ⟨kept, all, tu⟩ => pure ?_
    exact ⟨kept, List.forall_mem_cons.2 ⟨tu b made, all⟩, fun c hc => tu c (st c hc)⟩

/-- A loop that hands a value on from round to round. -/
theorem foldlM {l : List α} {f : β → α → ExceptT Fault (StateM σ) β} {b : β} {I : σ → Prop}
    (start : I s) (round : ∀ a ∈ l, ∀ b t, I t → Safe (f b a) t fun _ => I) :
    Safe (l.foldlM f b) s fun _ => I := by
  induction l generalizing b s with
  | nil => exact pure start
  | cons a l ih =>
    exact bind (round a (by simp) b s start) fun _ _ kept =>
      ih kept fun a' h => round a' (by simp [h])

end Safe

namespace Reaction

/-- A computation on the solver is as safe when it is taken as a reaction. -/
theorem safe_solve {f : Solve α} {own : σ} {s : Solver} {Q : α → σ × Solver → Prop}
    (h : Safe f s fun a t => Q a (own, t)) : Safe (solve f) (own, s) Q := by
  unfold Safe at h ⊢
  rcases run : f s with ⟨_ | a, t⟩ <;> simp only [solve, run] at h ⊢ <;> exact h

theorem safe_focus {view : τ → σ} {replace : σ → τ → τ} {f : Reaction σ α} {own : τ} {s : Solver}
    {Q : α → τ × Solver → Prop}
    (h : Safe f (view own, s) fun a st => Q a (replace st.1 own, st.2)) :
    Safe (f.focus view replace) (own, s) Q := by
  unfold Safe at h ⊢
  rcases run : f (view own, s) with ⟨_ | a, part, t⟩ <;> simp only [focus, run] at h ⊢ <;> exact h

theorem safe_own {own : σ} {s : Solver} {Q : σ → σ × Solver → Prop} (h : Q own (own, s)) :
    Safe Reaction.own (own, s) Q := h

theorem safe_solver {own : σ} {s : Solver} {Q : Solver → σ × Solver → Prop} (h : Q s (own, s)) :
    Safe Reaction.solver (own, s) Q := h

theorem safe_modifyOwn {f : σ → σ} {own : σ} {s : Solver} {Q : Unit → σ × Solver → Prop}
    (h : Q ⟨⟩ (f own, s)) : Safe (modifyOwn f) (own, s) Q := h

end Reaction

/-! ### Lookups -/

namespace Solve

variable {s : Solver}

theorem safe_known {x : Option α} {a : α} (h : x = some a) :
    Safe (known x) s fun b t => s = t ∧ b = a := by
  subst h
  exact .pure ⟨rfl, rfl⟩

theorem safe_get : Safe (get : Solve Solver) s fun a t => s = a ∧ s = t := .get ⟨rfl, rfl⟩

theorem safe_catalog : Safe catalog s fun c t => s = t ∧ c = s.catalog :=
  .bind safe_get fun _ _ h => .pure ⟨h.2, h.1 ▸ rfl⟩

theorem safe_change {f : Solver → α × Solver} :
    Safe (change f) s fun a t => a = (f s).1 ∧ t = (f s).2 := .modifyGet ⟨rfl, rfl⟩

theorem safe_methodDecl {m : MethodId} {d : MethodDecl} (h : s.program.methods[m]? = some d) :
    Safe (methodDecl m) s fun a t => s = t ∧ a = d := safe_known h

theorem safe_callSite {site : CallSiteId} {d : CallSite}
    (h : s.program.callSites[site]? = some d) :
    Safe (callSite site) s fun a t => s = t ∧ a = d := safe_known h

theorem safe_siteText {site : CallSiteId} {text : String}
    (h : s.program.siteText? site = some text) :
    Safe (siteText site) s fun a t => s = t ∧ a = text := safe_known h

theorem safe_varAt {v : ContextVarId} {pair : InContext .var}
    (h : s.elements.vars.get? v = some pair) : Safe (varAt v) s fun a t => s = t ∧ a = pair :=
  safe_known h

theorem safe_methodAt {m : ContextMethodId} {pair : InContext .method}
    (h : s.elements.methods.get? m = some pair) :
    Safe (methodAt m) s fun a t => s = t ∧ a = pair := safe_known h

theorem safe_siteAt {site : ContextSiteId} {pair : InContext .callSite}
    (h : s.elements.sites.get? site = some pair) :
    Safe (siteAt site) s fun a t => s = t ∧ a = pair := safe_known h

theorem safe_objectAt {o : ContextObjectId} {a : AbstractObject}
    (h : s.elements.object? o = some a) : Safe (objectAt o) s fun b t => s = t ∧ b = a :=
  safe_known h

end Solve

end PointsTo
