import Mathlib.Logic.Relation
import PointsTo.Proofs.Lambda.Wiring
import PointsTo.Proofs.Leastness

/-!
Relations between the states before and after a computation. A preorder that every single change
respects is respected by every computation that is put together from such changes.
-/
namespace PointsTo

variable {σ τ α β : Type}

/-- Whenever `f` gives a value, the states before and after it are related. -/
def Relates (R : σ → σ → Prop) (f : ExceptT Fault (StateM σ) α) : Prop :=
  ∀ s, Ensures f s fun _ t => R s t

namespace Relates

variable {R S : σ → σ → Prop} {f : ExceptT Fault (StateM σ) α}
  {g : α → ExceptT Fault (StateM σ) β}

theorem mono (h : Relates R f) (imp : ∀ s t, R s t → S s t) : Relates S f :=
  fun s => (h s).mono fun _ t => imp s t

theorem throw {fault : Fault} :
    Relates R (MonadExcept.throw fault : ExceptT Fault (StateM σ) α) := fun _ => .throw

theorem modifyGet {h : σ → α × σ} (step : ∀ s, R s (h s).2) :
    Relates R (MonadStateOf.modifyGet h) := fun s => .modifyGet (step s)

theorem modify {h : σ → σ} (step : ∀ s, R s (h s)) : Relates R (modify h) := fun s =>
  .modify (step s)

variable [IsPreorder σ R]

theorem of_same (h : ∀ s, Ensures f s fun _ t => s = t) : Relates R f := fun s =>
  (h s).mono fun _ _ same => same ▸ refl_of R s

theorem pure {a : α} : Relates R (Pure.pure a) := fun s => .pure (refl_of R s)

theorem get : Relates R MonadState.get := fun s => .get (refl_of R s)

theorem bind (hf : Relates R f) (hg : ∀ a, Relates R (g a)) : Relates R (f >>= g) := fun s =>
  .bind (hf s) fun a t st => (hg a t).mono fun _ _ tu => trans_of R st tu

theorem forM {l : List α} {f : α → ExceptT Fault (StateM σ) PUnit}
    (round : ∀ a ∈ l, Relates R (f a)) : Relates R (l.forM f) := by
  induction l with
  | nil => exact pure
  | cons a l ih =>
    exact bind (round a (by simp)) fun _ => ih fun b hb => round b (by simp [hb])

theorem mapM {l : List α} {f : α → ExceptT Fault (StateM σ) β}
    (round : ∀ a ∈ l, Relates R (f a)) : Relates R (l.mapM f) := by
  induction l with
  | nil => exact pure
  | cons a l ih =>
    rw [List.mapM_cons]
    exact bind (round a (by simp)) fun _ =>
      bind (ih fun b hb => round b (by simp [hb])) fun _ => pure

theorem foldlM {l : List α} {f : β → α → ExceptT Fault (StateM σ) β} {b : β}
    (round : ∀ a ∈ l, ∀ b, Relates R (f b a)) : Relates R (l.foldlM f b) := by
  induction l generalizing b with
  | nil => exact pure
  | cons a l ih =>
    exact bind (round a (by simp) b) fun _ => ih fun b hb => round b (by simp [hb])

end Relates

/-! ### Lookups -/

namespace Solve

variable {R : Solver → Solver → Prop} [IsPreorder Solver R]

theorem relates_known {x : Option α} : Relates R (known x) :=
  .of_same fun _ => ensures_known.mono fun _ _ h => h.1

theorem relates_catalog : Relates R catalog :=
  .of_same fun _ => ensures_catalog.mono fun _ _ h => h.1

theorem relates_methodDecl {m : MethodId} : Relates R (methodDecl m) :=
  .of_same fun _ => ensures_methodDecl.mono fun _ _ h => h.1

theorem relates_callSite {site : CallSiteId} : Relates R (callSite site) :=
  .of_same fun _ => ensures_callSite.mono fun _ _ h => h.1

theorem relates_siteText {site : CallSiteId} : Relates R (siteText site) :=
  .of_same fun _ => ensures_siteText

theorem relates_varAt {v : ContextVarId} : Relates R (varAt v) :=
  .of_same fun _ => ensures_varAt.mono fun _ _ h => h.1

theorem relates_methodAt {m : ContextMethodId} : Relates R (methodAt m) :=
  .of_same fun _ => ensures_methodAt.mono fun _ _ h => h.1

theorem relates_siteAt {site : ContextSiteId} : Relates R (siteAt site) :=
  .of_same fun _ => ensures_siteAt.mono fun _ _ h => h.1

theorem relates_objectAt {o : ContextObjectId} : Relates R (objectAt o) :=
  .of_same fun _ => ensures_objectAt.mono fun _ _ h => h.1

theorem relates_dispatch? {o : ContextObjectId} {target : MethodRef} :
    Relates R (dispatch? o target) :=
  .bind relates_objectAt fun _ => .bind relates_catalog fun _ => .bind relates_known fun _ =>
    .bind .get fun _ => .pure

end Solve

/-! ### Reactions -/

/-- Two states of a reaction whose solvers are related. -/
def Alike (R : Solver → Solver → Prop) (st st' : σ × Solver) : Prop := R st.2 st'.2

instance {R : Solver → Solver → Prop} [IsPreorder Solver R] :
    IsPreorder (σ × Solver) (Alike R) where
  refl st := refl_of R st.2
  trans _ _ _ := trans_of R

namespace Reaction

variable {R : Solver → Solver → Prop}

theorem relates_solve {f : Solve α} (h : Relates R f) :
    Relates (Alike R) (solve f : Reaction σ α) := fun (_, s) => ensures_solve (h s)

theorem relates_focus {view : τ → σ} {replace : σ → τ → τ} {f : Reaction σ α}
    (h : Relates (Alike R) f) : Relates (Alike R) (f.focus view replace) := by
  rintro ⟨own, s⟩ a ⟨own', t⟩ run
  rcases hf : f (view own, s) with ⟨r, part, u⟩
  simp only [focus, hf] at run
  cases run
  exact h _ a (part, t) hf

variable [IsPreorder Solver R]

theorem relates_modifyOwn {f : σ → σ} : Relates (Alike R) (modifyOwn f) :=
  .modify fun st => refl_of R st.2

theorem relates_own : Relates (Alike R) (own : Reaction σ σ) := .bind .get fun _ => .pure

theorem relates_solver : Relates (Alike R) (solver : Reaction σ Solver) :=
  .bind .get fun _ => .pure

end Reaction

end PointsTo
