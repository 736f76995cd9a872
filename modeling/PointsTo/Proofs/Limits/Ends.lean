import PointsTo.Proofs.Safety.Safe

/-!
Computations that may fail, specified for both ways in which they end: what holds of the value that
such a computation gives, and what holds of the state that it leaves behind with a fault.
-/
namespace PointsTo

variable {σ τ α β : Type}

/-- From the state `s`, `f` gives a value that satisfies `Q` together with the new state, or it fails
with a fault that satisfies `E` together with the state that it leaves behind. -/
def Ends (f : ExceptT Fault (StateM σ) α) (s : σ) (Q : α → σ → Prop) (E : Fault → σ → Prop) : Prop :=
  match f s with
  | (.ok a, t) => Q a t
  | (.error fault, t) => E fault t

namespace Ends

variable {f : ExceptT Fault (StateM σ) α} {g : α → ExceptT Fault (StateM σ) β} {s : σ}
  {P Q : α → σ → Prop} {R : β → σ → Prop} {D E : Fault → σ → Prop}

theorem mono (h : Ends f s P D) (value : ∀ a t, P a t → Q a t)
    (fault : ∀ fault t, D fault t → E fault t) : Ends f s Q E := by
  unfold Ends at h ⊢
  split at h
  next a t _ => exact value a t h
  next reason t _ => exact fault reason t h

theorem of_run (value : Ensures f s Q) (failure : ∀ fault t, f s = (.error fault, t) → E fault t) :
    Ends f s Q E := by
  unfold Ends
  split
  next a t run => exact value a t run
  next fault t run => exact failure fault t run

theorem bind (hf : Ends f s P E) (hg : ∀ a t, P a t → Ends (g a) t R E) : Ends (f >>= g) s R E := by
  unfold Ends at hf ⊢
  rw [Ensures.bind_run]
  rcases run : f s with ⟨_ | a, t⟩
  · rwa [run] at hf
  · rw [run] at hf
    exact hg a t hf

theorem ensures (h : Ends f s Q E) : Ensures f s Q := fun a t run => by
  rw [Ends, run] at h
  exact h

theorem failed (h : Ends f s Q E) {fault : Fault} {t : σ} (run : f s = (.error fault, t)) :
    E fault t := by
  rw [Ends, run] at h
  exact h

end Ends

/-- A computation on the solver ends in the same ways when it is taken as a reaction. -/
theorem Reaction.ends_solve {f : Solve α} {own : σ} {s : Solver} {Q : α → σ × Solver → Prop}
    {E : Fault → σ × Solver → Prop}
    (h : Ends f s (fun a t => Q a (own, t)) fun fault t => E fault (own, t)) :
    Ends (solve f) (own, s) Q E := by
  unfold Ends at h ⊢
  rcases run : f s with ⟨_ | a, t⟩ <;> simp only [solve, run] at h ⊢ <;> exact h

/-! ### Invariants -/

/-- When the state `s` satisfies the invariant `I`, `f` leads to another such state, related by `R`, with
a value that satisfies `Q`, or it fails as `E` says. -/
def Upholds (I : σ → Prop) (R : σ → σ → Prop) (E : Fault → σ → Prop)
    (f : ExceptT Fault (StateM σ) α) (s : σ) (Q : α → σ → Prop) : Prop :=
  I s → Ends f s (fun a t => I t ∧ R s t ∧ Q a t) E

namespace Upholds

variable {I : σ → Prop} {R : σ → σ → Prop} {E : Fault → σ → Prop}
  {f : ExceptT Fault (StateM σ) α} {g : α → ExceptT Fault (StateM σ) β} {s : σ}
  {P Q : α → σ → Prop} {S : β → σ → Prop}

theorem mono (h : Upholds I R E f s P) (imp : ∀ a t, R s t → P a t → Q a t) :
    Upholds I R E f s Q := fun hs =>
  (h hs).mono (fun a t ⟨ht, st, post⟩ => ⟨ht, st, imp a t st post⟩) fun _ _ => id

theorem throw {fault : Fault} (h : I s → E fault s) :
    Upholds I R E (MonadExcept.throw fault) s Q := h

/-- A lookup leaves the state alone, whether or not it fails. -/
theorem after {P : α → Prop} {D : Fault → Prop}
    (look : Ends f s (fun a t => t = s ∧ P a) fun fault t => t = s ∧ D fault)
    (refused : ∀ fault, D fault → I s → E fault s)
    (hg : ∀ a, P a → Upholds I R E (g a) s S) : Upholds I R E (f >>= g) s S := fun hs => by
  refine (look.mono (Q := fun a t => t = s ∧ P a) (fun _ _ => id) ?_).bind ?_
  · rintro fault _ ⟨rfl, reason⟩
    exact refused fault reason hs
  · rintro a _ ⟨rfl, post⟩
    exact hg a post hs

theorem afterGet {g : σ → ExceptT Fault (StateM σ) β} (hg : Upholds I R E (g s) s S) :
    Upholds I R E (get >>= g) s S := hg

theorem modifyGet {h : σ → α × σ} (step : I s → I (h s).2 ∧ R s (h s).2)
    (post : I s → Q (h s).1 (h s).2) : Upholds I R E (MonadStateOf.modifyGet h) s Q := fun hs =>
  ⟨(step hs).1, (step hs).2, post hs⟩

theorem modify {h : σ → σ} (step : I s → I (h s) ∧ R s (h s)) :
    Upholds I R E (modify h) s fun _ _ => True := fun hs => ⟨(step hs).1, (step hs).2, trivial⟩

variable [IsPreorder σ R]

theorem pure {a : α} (h : Q a s) : Upholds I R E (Pure.pure a) s Q := fun hs =>
  ⟨hs, refl_of R s, h⟩

theorem bind (hf : Upholds I R E f s P) (hg : ∀ a t, R s t → P a t → Upholds I R E (g a) t S) :
    Upholds I R E (f >>= g) s S := fun hs =>
  (hf hs).bind fun a t ⟨ht, st, post⟩ =>
    (hg a t st post ht).mono (fun _ _ ⟨hu, tu, post⟩ => ⟨hu, trans_of R st tu, post⟩) fun _ _ => id

/-- Something is done under a condition, before the rest. -/
theorem ite_bind {c : Prop} [Decidable c] {f : ExceptT Fault (StateM σ) PUnit}
    {rest : ExceptT Fault (StateM σ) β} (hf : Upholds I R E f s fun _ _ => True)
    (hrest : ∀ t, R s t → Upholds I R E rest t S) :
    Upholds I R E (if c then f >>= fun _ => rest else rest) s S := by
  split
  · exact bind hf fun _ t st _ => hrest t st
  · exact hrest s (refl_of R s)

/-- A loop: what each round achieves holds at the end, when nothing that `R` allows undoes it. -/
theorem forM_forall {l : List α} {f : α → ExceptT Fault (StateM σ) PUnit} {D : α → σ → Prop}
    (up : ∀ a s t, R s t → D a s → D a t)
    (round : ∀ a ∈ l, ∀ t, R s t → Upholds I R E (f a) t fun _ => D a) :
    Upholds I R E (l.forM f) s fun _ t => ∀ a ∈ l, D a t := by
  induction l generalizing s with
  | nil => exact pure (by simp)
  | cons a l ih =>
    refine bind (round a (by simp) s (refl_of R s)) fun _ t st done => ?_
    refine (ih fun b hb u tu => round b (by simp [hb]) u (trans_of R st tu)).mono fun _ u tu rest => ?_
    exact List.forall_mem_cons.2 ⟨up a t u tu done, rest⟩

theorem forM {l : List α} {f : α → ExceptT Fault (StateM σ) PUnit}
    (round : ∀ a ∈ l, ∀ t, R s t → Upholds I R E (f a) t fun _ _ => True) :
    Upholds I R E (l.forM f) s fun _ _ => True :=
  (forM_forall (D := fun _ _ => True) (fun _ _ _ _ => id) round).mono fun _ _ _ _ => trivial

/-- A loop that collects values: what is true of each round's value when it is found is true of all
values at the end. -/
theorem mapM_forall₂ {l : List α} {f : α → ExceptT Fault (StateM σ) β} {D : α → β → σ → Prop}
    (up : ∀ a b s t, R s t → D a b s → D a b t)
    (round : ∀ a ∈ l, ∀ t, R s t → Upholds I R E (f a) t (D a)) :
    Upholds I R E (l.mapM f) s fun bs t => List.Forall₂ (fun a b => D a b t) l bs := by
  induction l generalizing s with
  | nil => exact pure .nil
  | cons a l ih =>
    rw [List.mapM_cons]
    refine bind (round a (by simp) s (refl_of R s)) fun b t st found => ?_
    exact bind (ih fun a' h u tu => round a' (by simp [h]) u (trans_of R st tu))
      fun bs u tu all => pure (.cons (up a b t u tu found) all)

theorem mapM {l : List α} {f : α → ExceptT Fault (StateM σ) β}
    (round : ∀ a ∈ l, ∀ t, R s t → Upholds I R E (f a) t fun _ _ => True) :
    Upholds I R E (l.mapM f) s fun _ _ => True :=
  (mapM_forall₂ (D := fun _ _ _ => True) (fun _ _ _ _ _ => id) round).mono fun _ _ _ _ => trivial

theorem foldlM {l : List α} {f : β → α → ExceptT Fault (StateM σ) β} {b : β}
    (round : ∀ a ∈ l, ∀ b t, R s t → Upholds I R E (f b a) t fun _ _ => True) :
    Upholds I R E (l.foldlM f b) s fun _ _ => True := by
  induction l generalizing b s with
  | nil => exact pure trivial
  | cons a l ih =>
    rw [List.foldlM_cons]
    refine bind (round a (by simp) b s (refl_of R s)) fun c t st _ => ?_
    exact ih fun a' h c u tu => round a' (by simp [h]) c u (trans_of R st tu)

end Upholds

/-! ### Lookups -/

namespace Solve

variable {s : Solver}

/-- A lookup, which may fail only because an id names nothing. -/
abbrev Looks (f : Solve α) (s : Solver) (P : α → Prop) : Prop :=
  Ends f s (fun a t => t = s ∧ P a) fun fault t => t = s ∧ fault = .unknownId

theorem looks_known {x : Option α} : Looks (known x) s fun a => x = some a := by
  cases x with
  | none => exact ⟨rfl, rfl⟩
  | some a => exact ⟨rfl, rfl⟩

theorem looks_catalog : Looks catalog s fun c => c = s.catalog := ⟨rfl, rfl⟩

theorem looks_methodDecl {m : MethodId} :
    Looks (methodDecl m) s fun d => s.program.methods[m]? = some d := looks_known

theorem looks_callSite {site : CallSiteId} :
    Looks (callSite site) s fun d => s.program.callSites[site]? = some d := looks_known

theorem looks_siteText {site : CallSiteId} :
    Looks (siteText site) s fun text => s.program.siteText? site = some text := looks_known

theorem looks_varAt {x : ContextVarId} :
    Looks (varAt x) s fun pair => s.elements.vars.get? x = some pair := looks_known

theorem looks_methodAt {m : ContextMethodId} :
    Looks (methodAt m) s fun pair => s.elements.methods.get? m = some pair := looks_known

theorem looks_siteAt {site : ContextSiteId} :
    Looks (siteAt site) s fun pair => s.elements.sites.get? site = some pair := looks_known

theorem looks_objectAt {o : ContextObjectId} :
    Looks (objectAt o) s fun a => s.elements.object? o = some a := looks_known

theorem looks_dispatch? {o : ContextObjectId} {target : MethodRef} :
    Looks (dispatch? o target) s fun _ => True := by
  refine Ends.bind looks_objectAt ?_
  rintro a _ ⟨rfl, -⟩
  refine Ends.bind looks_catalog ?_
  rintro c _ ⟨rfl, -⟩
  refine Ends.bind looks_known ?_
  rintro d _ ⟨rfl, -⟩
  exact ⟨rfl, trivial⟩

end Solve

/-! ### Runs -/

namespace Analysis

/-- The oldest event is taken from the queue, if there is one. -/
def Takes (s : Solver) : Option Event → Solver → Prop
  | some e, t => ∃ rest, s.events.toList = e :: rest.toList ∧ t = { s with events := rest }
  | none, t => s.events.toList = [] ∧ t = s

/-- Looking for an event does not fail. -/
theorem ends_nextEvent {s : Solver} : Ends nextEvent s (Takes s) fun _ _ => False := by
  refine Ends.bind (P := fun u t => u = s ∧ t = s) ⟨rfl, rfl⟩ ?_
  rintro _ _ ⟨rfl, rfl⟩
  split
  next e rest hpop => exact ⟨rest, Queue.toList_of_pop? hpop, rfl⟩
  next none => exact ⟨Queue.pop?_eq_none_iff.1 none, rfl⟩

variable {plugin : Plugin σ} {fuel : Nat} {st : σ × Solver} {I Q L : σ × Solver → Prop}
  {E : Fault → σ × Solver → Prop}
  (work : ∀ st, I st → Ends (step plugin) st (fun more st' => if more then I st' else Q st') E)
include work

theorem ends_loop (h : I st) :
    Ends (loop plugin fuel) st (fun done st' => if done then Q st' else I st') E := by
  induction fuel generalizing st with
  | zero => exact h
  | succ fuel ih =>
    refine (work st h).bind fun more st' done => ?_
    cases more with
    | true => exact ih done
    | false => exact done

/-- What holds when there is nothing left to do holds when the plugins have their last say; a run that is
stopped is where a transition is due, and a run that fails does so as a transition may. -/
theorem ends_analyze {own : σ} {s : Solver}
    (start : Ends plugin.onStart (own, s) (fun _ st =>
      Ends (Reaction.solve Solve.reachEntries) st (fun _ => I) E) E)
    (finish : ∀ st, Q st → Ends plugin.onFinish st (fun _ => L) E) {r : Run σ}
    (ran : analyze fuel plugin own s = r) : match r.verdict with
      | .finished => L (r.plugins, r.solver)
      | .failed fault => E fault (r.plugins, r.solver)
      | .unfinished => I (r.plugins, r.solver) := by
  have ends : Ends (runWithin fuel plugin) (own, s) (fun verdict st' => match verdict with
      | .finished => L st'
      | .failed _ => False
      | .unfinished => I st') E := by
    refine start.bind fun _ st entries => entries.bind fun _ st' h => ?_
    refine (ends_loop work h).bind fun done last quiet => ?_
    cases done with
    | true => exact (finish last quiet).bind fun _ _ said => said
    | false => exact quiet
  subst ran
  unfold Ends at ends
  unfold analyze
  rcases run : runWithin fuel plugin (own, s) with ⟨fault | _ | _ | _, own', t⟩ <;> rw [run] at ends
  · exact ends
  · exact ends
  · exact ends.elim
  · exact ends

end Analysis

end PointsTo
