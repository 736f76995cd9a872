import PointsTo.Proofs.Safety.Core

/-!
Plugins that keep the state in order: whatever happens, they answer it with facts that are in order,
and fail for external reasons only.
-/
namespace PointsTo

variable {σ τ α β : Type} {p : Program} {sel : Selector} {J : σ → Solver → Prop}
  {st : σ × Solver}

/-- When the solver is in order and the plugins' own state satisfies `J`, both go on to be so after
`f`, which gives a value that satisfies `Q` or fails with a fault that is not internal. -/
def Reacting (p : Program) (sel : Selector) (J : σ → Solver → Prop) (f : Reaction σ α)
    (st : σ × Solver) (Q : α → σ × Solver → Prop) : Prop :=
  Grounded p sel none st.2 → J st.1 st.2 →
    Safe f st fun a u => (Advances p sel none st.2 u.2 ∧ J u.1 u.2) ∧ Q a u

namespace Reacting

variable {f : Reaction σ α} {g : α → Reaction σ β} {P Q : α → σ × Solver → Prop}
  {R : β → σ × Solver → Prop}

theorem pure {a : α} (h : Q a st) : Reacting p sel J (Pure.pure a) st Q := fun hs hJ =>
  .pure ⟨⟨.refl hs, hJ⟩, h⟩

theorem throw {fault : Fault} (external : ¬ fault.IsInternal) :
    Reacting p sel J (MonadExcept.throw fault) st Q := fun _ _ => .throw external

theorem bind (hf : Reacting p sel J f st P)
    (hg : ∀ a u, st.2.Later u.2 → P a u → Reacting p sel J (g a) u R) :
    Reacting p sel J (f >>= g) st R := fun hs hJ =>
  (hf hs hJ).bind fun a u ⟨⟨su, hu⟩, post⟩ =>
    (hg a u su.toLater post su.grounded hu).mono fun _ _ ⟨⟨uv, hv⟩, post⟩ =>
      ⟨⟨su.trans uv, hv⟩, post⟩

/-- A lookup leaves both states alone. -/
theorem afterAny {f : Solve α} {P : α → Prop} (hf : Safe f st.2 fun b t => st.2 = t ∧ P b)
    (hg : ∀ a, P a → Reacting p sel J (g a) st R) :
    Reacting p sel J (Reaction.solve f >>= g) st R := fun hs hJ =>
  .bind (P := fun b u => st = u ∧ P b)
    (Reaction.safe_solve (hf.mono fun _ _ h => ⟨Prod.ext rfl h.1, h.2⟩))
    fun b u ⟨same, post⟩ => by
      subst same
      exact hg b post hs hJ

/-- The same, when it is known what the lookup gives. -/
theorem after {f : Solve α} {a : α} (hf : Safe f st.2 fun b t => st.2 = t ∧ b = a)
    (hg : Reacting p sel J (g a) st R) : Reacting p sel J (Reaction.solve f >>= g) st R :=
  afterAny hf fun _ same => same ▸ hg

theorem afterOwn {g : σ → Reaction σ β} (hg : Reacting p sel J (g st.1) st R) :
    Reacting p sel J (Reaction.own >>= g) st R := fun hs hJ =>
  .bind (P := fun a u => st = u ∧ a = st.1) (Reaction.safe_own ⟨rfl, rfl⟩) fun a u ⟨same, value⟩ => by
    subst same value
    exact hg hs hJ

theorem afterSolver {g : Solver → Reaction σ β} (hg : Reacting p sel J (g st.2) st R) :
    Reacting p sel J (Reaction.solver >>= g) st R := fun hs hJ =>
  .bind (P := fun a u => st = u ∧ a = st.2) (Reaction.safe_solver ⟨rfl, rfl⟩)
    fun a u ⟨same, value⟩ => by
      subst same value
      exact hg hs hJ

theorem modifyOwn {f : σ → σ} {Q : Unit → σ × Solver → Prop} (h : J st.1 st.2 → J (f st.1) st.2)
    (post : Q ⟨⟩ (f st.1, st.2)) : Reacting p sel J (Reaction.modifyOwn f) st Q := fun hs hJ =>
  Reaction.safe_modifyOwn ⟨⟨.refl hs, h hJ⟩, post⟩

theorem forM {l : List α} {f : α → Reaction σ PUnit}
    (round : ∀ a ∈ l, ∀ u : σ × Solver, st.2.Later u.2 →
      Reacting p sel J (f a) u fun _ _ => True) :
    Reacting p sel J (l.forM f) st fun _ _ => True := fun hs hJ =>
  (Safe.forM (I := fun u => Advances p sel none st.2 u.2 ∧ J u.1 u.2) ⟨.refl hs, hJ⟩
    fun a ha u ⟨su, hu⟩ => (round a ha u su.toLater su.grounded hu).mono
      fun _ _ h => ⟨su.trans h.1.1, h.1.2⟩).mono fun _ _ h => ⟨h, trivial⟩

section Lifted

variable (stable : ∀ own s t, J own s → s.Keeps t → J own t)
include stable

theorem solve {f : Solve α} {Q : α → Solver → Prop} (h : Advancing p sel none f st.2 Q) :
    Reacting p sel J (Reaction.solve f) st fun a u => Q a u.2 := fun hs hJ =>
  Reaction.safe_solve ((h hs).mono fun _ _ ⟨su, post⟩ =>
    ⟨⟨su, stable _ _ _ hJ su.toKeeps⟩, post⟩)

end Lifted

/-- The state of a part is in order when that of the whole is, and the other way round. -/
theorem focus {K : τ → Solver → Prop} {view : τ → σ} {replace : σ → τ → τ}
    (part : ∀ own s, K own s → J (view own) s)
    (whole : ∀ own own' s t, K own s → s.Keeps t → J own' t → K (replace own' own) t)
    {st : τ × Solver}
    (h : Reacting p sel J f (view st.1, st.2) fun _ _ => True) :
    Reacting p sel K (f.focus view replace) st fun _ _ => True := fun hs hK =>
  Reaction.safe_focus ((h hs (part _ _ hK)).mono fun _ _ ⟨⟨su, hJ⟩, _⟩ =>
    ⟨⟨su, whole _ _ _ _ hK su.toKeeps hJ⟩, trivial⟩)

end Reacting

/-! ### Plugins -/

/-- Reactions to events that are in order are in order. -/
structure Plugin.Secure (plugin : Plugin σ) (p : Program) (sel : Selector)
    (J : σ → Solver → Prop) : Prop where
  onStart : ∀ st, Reacting p sel J plugin.onStart st fun _ _ => True
  onMethod : ∀ st m, st.2.Vouches p.toCatalog (.method m) →
    Reacting p sel J (plugin.onMethod m) st fun _ _ => True
  onContextMethod : ∀ st cm, st.2.Vouches p.toCatalog (.contextMethod cm) →
    Reacting p sel J (plugin.onContextMethod cm) st fun _ _ => True
  onCall : ∀ st e, st.2.Vouches p.toCatalog (.call e) →
    Reacting p sel J (plugin.onCall e) st fun _ _ => True
  onUnresolved : ∀ st receiver c site, st.2.Vouches p.toCatalog (.unresolved receiver c site) →
    Reacting p sel J (plugin.onUnresolved receiver c site) st fun _ _ => True
  onObjects : ∀ st x delta, st.2.Vouches p.toCatalog (.objects x delta) →
    Reacting p sel J (plugin.onObjects x delta) st fun _ _ => True
  onFinish : ∀ st, Reacting p sel J plugin.onFinish st fun _ _ => True

namespace Plugin.Secure

theorem all {plugins : List (Plugin σ)} (h : ∀ q ∈ plugins, q.Secure p sel J) :
    (Plugin.all plugins).Secure p sel J where
  onStart _ := .forM fun q hq u _ => (h q hq).onStart u
  onMethod _ m hm := .forM fun q hq u su => (h q hq).onMethod u m (hm.kept su.toKeeps)
  onContextMethod _ cm hcm := .forM fun q hq u su =>
    (h q hq).onContextMethod u cm (hcm.kept su.toKeeps)
  onCall _ e he := .forM fun q hq u su => (h q hq).onCall u e (he.kept su.toKeeps)
  onUnresolved st receiver c site hv := fun hs hJ =>
    (Safe.foldlM (I := fun u => Advances p sel none st.2 u.2 ∧ J u.1 u.2) ⟨.refl hs, hJ⟩
      fun q hq _ u ⟨su, hu⟩ => Safe.bind
        ((h q hq).onUnresolved u receiver c site (hv.kept su.toKeeps) su.grounded hu)
        fun _ _ ⟨⟨uw, hw⟩, _⟩ => .pure ⟨su.trans uw, hw⟩).mono fun _ _ h => ⟨h, trivial⟩
  onObjects _ x delta hx := .forM fun q hq u su =>
    (h q hq).onObjects u x delta (hx.kept su.toKeeps)
  onFinish _ := .forM fun q hq u _ => (h q hq).onFinish u

theorem focus {K : τ → Solver → Prop} {plugin : Plugin σ} (h : plugin.Secure p sel J)
    {view : τ → σ} {replace : σ → τ → τ} (part : ∀ own s, K own s → J (view own) s)
    (whole : ∀ own own' s t, K own s → s.Keeps t → J own' t → K (replace own' own) t) :
    (plugin.focus view replace).Secure p sel K where
  onStart _ := .focus part whole (h.onStart _)
  onMethod _ m hm := .focus part whole (h.onMethod _ m hm)
  onContextMethod _ cm hcm := .focus part whole (h.onContextMethod _ cm hcm)
  onCall _ e he := .focus part whole (h.onCall _ e he)
  onUnresolved _ receiver c site hv := .focus part whole (h.onUnresolved _ receiver c site hv)
  onObjects _ x delta hx := .focus part whole (h.onObjects _ x delta hx)
  onFinish _ := .focus part whole (h.onFinish _)

end Plugin.Secure

/-! ### Events -/

namespace Analysis

open Solve

/-- A call that nobody takes care of can be told to the user. -/
theorem advancing_reject {s : Solver} {receiver : Option ContextObjectId} {c : ContextId}
    {site : CallSiteId} (hv : s.Vouches p.toCatalog (.unresolved receiver c site)) :
    Advancing p sel none (reject receiver site) s fun _ _ => True := fun hs => by
  obtain ⟨⟨decl, hd, -⟩, known⟩ := hv
  obtain ⟨text, htext⟩ := hs.siteText? hd
  cases receiver with
  | none =>
    refine Advancing.after (safe_callSite (d := decl) (by rw [hs.program]; exact hd)) ?_ hs
    exact .after (safe_siteText htext) (.throw id)
  | some o =>
    obtain ⟨a, ha, makes⟩ := hs.object? (known o rfl)
    obtain ⟨name, hname⟩ := Catalog.typeName?_of_lt makes.type
    refine Advancing.after (safe_siteText htext) ?_ hs
    refine .after (safe_objectAt ha) (.after safe_catalog (.after (a := name) ?_ ?_))
    · rw [Solver.catalog, hs.program]
      exact safe_known hname
    · exact advancing_warn _

/-- The oldest event is in order, and the state without it. -/
theorem safe_nextEvent {s : Solver} (hs : Grounded p sel none s) :
    Safe nextEvent s fun e t => Advances p sel none s t ∧
      ∀ event, e = some event → t.Vouches p.toCatalog event := by
  refine .bind safe_get ?_
  rintro _ _ ⟨rfl, rfl⟩
  split
  next e rest hpop =>
    have list := Queue.toList_of_pop? hpop
    have st : Advances p sel none s { s with events := rest } := hs.withEvents fun e' he' => by
      rw [list]
      exact List.mem_cons_of_mem _ he'
    have vouched := (hs.announced e (by rw [list]; exact List.mem_cons_self)).kept st.toKeeps
    refine .bind (.set (Q := fun _ t => t = { s with events := rest }) rfl) ?_
    rintro _ _ rfl
    refine .pure ⟨st, ?_⟩
    rintro _ ⟨⟩
    exact vouched
  next => exact .pure ⟨.refl hs, nofun⟩

variable {plugin : Plugin σ} (secure : plugin.Secure p sel J)
  (stable : ∀ own s t, J own s → s.Keeps t → J own t)
include secure stable

theorem reacting_dispatch {e : Event} (he : st.2.Vouches p.toCatalog e) :
    Reacting p sel J (dispatch plugin e) st fun _ _ => True := by
  cases e with
  | method m => exact secure.onMethod st m he
  | contextMethod cm => exact secure.onContextMethod st cm he
  | call e => exact secure.onCall st e he
  | objects x delta => exact secure.onObjects st x delta he
  | unresolved receiver c site =>
    refine .bind (secure.onUnresolved st receiver c site he) fun claimed u su _ => ?_
    split
    · exact .solve stable (advancing_reject (he.kept su.toKeeps))
    · exact .pure trivial

/-- Every transition of a run keeps both states in order. -/
theorem safe_step (hs : Grounded p sel none st.2) (hJ : J st.1 st.2) :
    Safe (step plugin) st fun _ u => Moves p sel st.2 u.2 ∧ J u.1 u.2 := by
  refine .bind (P := fun e u => (Advances p sel none st.2 u.2 ∧ J u.1 u.2) ∧
    ∀ event, e = some event → u.2.Vouches p.toCatalog event)
    (Reaction.safe_solve ((safe_nextEvent hs).mono fun _ t ⟨su, vouched⟩ =>
      ⟨⟨su, stable _ _ _ hJ su.toKeeps⟩, vouched⟩)) ?_
  rintro e u ⟨⟨su, hu⟩, vouched⟩
  cases e with
  | some event =>
    refine .bind (reacting_dispatch secure stable (vouched event rfl) su.grounded hu) ?_
    rintro _ v ⟨⟨uv, hv⟩, -⟩
    exact .pure ⟨(su.trans uv).moves, hv⟩
  | none =>
    exact Reaction.safe_solve ((Solve.safe_step su.grounded).mono fun _ t ut =>
      ⟨su.moves.trans ut, stable _ _ _ hu ut.toKeeps⟩)

theorem safe_loop {fuel : Nat} (hs : Grounded p sel none st.2) (hJ : J st.1 st.2) :
    Safe (loop plugin fuel) st fun _ u => Grounded p sel none u.2 ∧ J u.1 u.2 := by
  induction fuel generalizing st with
  | zero => exact .pure ⟨hs, hJ⟩
  | succ fuel ih =>
    refine .bind (safe_step secure stable hs hJ) ?_
    rintro more u ⟨su, hu⟩
    cases more with
    | true => exact ih su.grounded hu
    | false => exact .pure ⟨su.grounded, hu⟩

/-- The reactions before the first transition. -/
theorem safe_start (hs : Grounded p sel none st.2) (hJ : J st.1 st.2) :
    Safe plugin.onStart st fun _ u => (Grounded p sel none u.2 ∧ J u.1 u.2) ∧
      Safe (Reaction.solve Solve.reachEntries) u fun _ v => Grounded p sel none v.2 ∧ J v.1 v.2 :=
  (secure.onStart st hs hJ).mono fun _ _ ⟨⟨su, hu⟩, _⟩ => ⟨⟨su.grounded, hu⟩,
    Reaction.safe_solve ((advancing_reachEntries su.grounded).mono fun _ _ ⟨uv, _⟩ =>
      ⟨uv.grounded, stable _ _ _ hu uv.toKeeps⟩)⟩

/-- A run that fails does so for an external reason. -/
theorem not_isInternal_of_failed {fuel : Nat} {fault : Fault} {own : σ} {s : Solver}
    (hs : Grounded p sel none s) (hJ : J own s)
    (failed : (analyze fuel plugin own s).verdict = .failed fault) : ¬ fault.IsInternal := by
  have safe : Safe (runWithin fuel plugin) (own, s) fun verdict _ =>
      ∀ fault, verdict ≠ .failed fault := by
    refine .bind (safe_start secure stable hs hJ) ?_
    rintro _ u ⟨-, entries⟩
    refine .bind entries ?_
    rintro _ v ⟨hv, hJv⟩
    refine .bind (safe_loop secure stable hv hJv) ?_
    rintro done w ⟨hw, hJw⟩
    cases done with
    | true => exact .bind (secure.onFinish w hw hJw) fun _ _ _ => .pure nofun
    | false => exact .pure nofun
  unfold analyze at failed
  split at failed
  next verdict own t run => exact absurd failed (safe.ensures _ _ run fault)
  next fault' own t run =>
    cases failed
    exact safe.not_isInternal run

/-- Both states are in order whenever a transition is due. -/
theorem grounded_of_visits {start : σ × Solver} (hs : Grounded p sel none start.2)
    (hJ : J start.1 start.2) (visited : Visits plugin start st) :
    Grounded p sel none st.2 ∧ J st.1 st.2 :=
  visited.invariant (I := fun st => Grounded p sel none st.2 ∧ J st.1 st.2)
    ((safe_start secure stable hs hJ).ensures.mono fun _ _ h => h.2.ensures)
    fun _ h => (safe_step secure stable h.1 h.2).ensures.mono fun _ _ ⟨moves, hu⟩ _ =>
      ⟨moves.grounded, hu⟩

end Analysis

end PointsTo
