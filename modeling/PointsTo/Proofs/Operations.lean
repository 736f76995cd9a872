import PointsTo.Proofs.Sound
import PointsTo.Solver.Step

/-!
The operations that the solver is made of: lookups, the selection of contexts, and new flows.
-/
namespace PointsTo

open Facts

namespace Solve

variable {α β : Type} {F : Solution} {s : Solver}

/-! ### Lookups -/

theorem ensures_get : Ensures (get : Solve Solver) s fun a t => s = a ∧ s = t :=
  .get ⟨rfl, rfl⟩

theorem ensures_set {t : Solver} : Ensures (set t : Solve PUnit) s fun _ u => u = t := .set rfl

theorem ensures_modify {f : Solver → Solver} :
    Ensures (modify f : Solve PUnit) s fun _ t => t = f s := .modify rfl

theorem ensures_change {f : Solver → α × Solver} :
    Ensures (change f) s fun a t => a = (f s).1 ∧ t = (f s).2 := .modifyGet ⟨rfl, rfl⟩

theorem ensures_known {x : Option α} : Ensures (known x) s fun a t => s = t ∧ x = some a := by
  cases x with
  | none => exact .throw
  | some a => exact .pure ⟨rfl, rfl⟩

theorem ensures_catalog : Ensures catalog s fun c t => s = t ∧ c = s.catalog := by
  rintro _ _ run
  cases run
  exact ⟨rfl, rfl⟩

theorem ensures_methodDecl {m : MethodId} :
    Ensures (methodDecl m) s fun d t => s = t ∧ s.program.methods[m]? = some d := by
  refine .bind ensures_catalog ?_
  rintro _ _ ⟨rfl, rfl⟩
  exact ensures_known

theorem ensures_callSite {site : CallSiteId} :
    Ensures (callSite site) s fun d t => s = t ∧ s.program.callSites[site]? = some d := by
  refine .bind ensures_catalog ?_
  rintro _ _ ⟨rfl, rfl⟩
  exact ensures_known

theorem ensures_siteText {site : CallSiteId} : Ensures (siteText site) s fun _ t => s = t := by
  refine .bind ensures_catalog ?_
  rintro _ _ ⟨rfl, rfl⟩
  exact ensures_known.mono fun _ _ h => h.1

theorem ensures_varAt {v : ContextVarId} :
    Ensures (varAt v) s fun pair t => s = t ∧ s.elements.vars.get? v = some pair := by
  refine .bind ensures_get ?_
  rintro _ _ ⟨rfl, rfl⟩
  exact ensures_known

theorem ensures_methodAt {m : ContextMethodId} :
    Ensures (methodAt m) s fun pair t => s = t ∧ s.elements.methods.get? m = some pair := by
  refine .bind ensures_get ?_
  rintro _ _ ⟨rfl, rfl⟩
  exact ensures_known

theorem ensures_siteAt {site : ContextSiteId} :
    Ensures (siteAt site) s fun pair t => s = t ∧ s.elements.sites.get? site = some pair := by
  refine .bind ensures_get ?_
  rintro _ _ ⟨rfl, rfl⟩
  exact ensures_known

theorem ensures_objectAt {o : ContextObjectId} :
    Ensures (objectAt o) s fun a t => s = t ∧ s.elements.object? o = some a := by
  refine .bind ensures_get ?_
  rintro _ _ ⟨rfl, rfl⟩
  exact ensures_known

theorem ensures_dispatch? {o : ContextObjectId} {v : Value} {target : MethodRef}
    (ho : s.elements.value? o = some v) :
    Ensures (dispatch? o target) s fun r t =>
      s = t ∧ r = s.program.dispatch v.object.type target.sub := by
  refine .bind ensures_objectAt ?_
  rintro a _ ⟨rfl, ha⟩
  refine .bind ensures_catalog ?_
  rintro _ _ ⟨rfl, rfl⟩
  refine .bind ensures_known ?_
  rintro _ _ ⟨rfl, -⟩
  refine .bind ensures_get ?_
  rintro _ _ ⟨rfl, rfl⟩
  cases ha.symm.trans (Elements.object?_of_value? ho)
  exact .pure ⟨rfl, rfl⟩

/-! ### Loops -/

/-- A loop whose rounds only add facts: what each round achieves holds at the end. -/
theorem ensures_forM_of_extends {l : List α} {f : α → Solve PUnit} {D : α → Solver → Prop}
    (up : ∀ a s t, s.Extends t → D a s → D a t) (hs : Sound F s)
    (round : ∀ a ∈ l, ∀ t, Adds F s t → Ensures (f a) t fun _ u => Adds F t u ∧ D a u) :
    Ensures (l.forM f) s fun _ t => Adds F s t ∧ ∀ a ∈ l, D a t :=
  .forM (fun _ _ st => .refl st.sound) (fun _ _ _ => .trans) (fun a _ _ st => up a _ _ st.toExtends)
    (.refl hs) round

/-- The same for what is read off the granted constraints. -/
theorem ensures_forM {l : List α} {f : α → Solve PUnit} {D : α → Reading → Prop}
    (up : ∀ a R S, R.Le S → D a R → D a S) (hs : Sound F s)
    (round : ∀ a ∈ l, ∀ t, Adds F s t → Ensures (f a) t fun _ u => Adds F t u ∧ D a u.reading) :
    Ensures (l.forM f) s fun _ t => Adds F s t ∧ ∀ a ∈ l, D a t.reading :=
  ensures_forM_of_extends (D := fun a s => D a s.reading) (fun a _ _ g => up a _ _ g.reading) hs
    round

/-! ### Selected contexts -/

/-- The meaning of a selected context. -/
def Denotes (e : Elements) (σ : Situation) : Selection → Prop
  | .known id => e.situation? id = some σ
  | .built context => context.mapM e.marker? = some σ

theorem ensures_settle {select : Solver → Except Fault Selection} {σ : Situation} (hs : Sound F s)
    (denotes : ∀ selection, select s = .ok selection → Denotes s.elements σ selection) :
    Ensures (settle select) s fun id t => Adds F s t ∧ t.elements.situation? id = some σ := by
  refine .bind ensures_get ?_
  rintro _ _ ⟨rfl, rfl⟩
  have selected : Ensures (.mk (pure (select s)) : Solve Selection) s fun selection t =>
      s = t ∧ select s = .ok selection := by
    rintro selection t run
    change (select s, s) = (.ok selection, t) at run
    cases h : select s with
    | error fault => rw [h] at run; cases run
    | ok a =>
      rw [h] at run
      cases run
      exact ⟨rfl, rfl⟩
  refine .bind selected ?_
  rintro selection _ ⟨rfl, chosen⟩
  have means := denotes selection chosen
  refine ensures_change.mono ?_
  rintro _ _ ⟨rfl, rfl⟩
  cases selection with
  | known id => exact ⟨.refl hs, means⟩
  | built context =>
    refine ⟨hs.internContext, Option.bind_eq_some_iff.2 ⟨context, ContextTable.get?_intern, ?_⟩⟩
    exact means

theorem context_eq_of_situation? {e : Elements} {c : ContextId} {σ : Situation}
    (h : e.situation? c = some σ) : (e.context c).mapM e.marker? = some σ := by
  obtain ⟨l, hl, hσ⟩ := Option.bind_eq_some_iff.1 h
  rw [Elements.context, ContextTable.context, hl]
  exact hσ

theorem denotes_take {e : Elements} {c : Context} {σ : Situation} {k : Nat}
    (h : c.mapM e.marker? = some σ) : (c.take k).mapM e.marker? = some (σ.take k) := by
  rw [mapM_eq_some_iff] at h ⊢
  exact List.forall₂_take k h

theorem denotes_pushed {e : Elements} {k : Nat} {element : ContextElement} {m : Marker}
    {c : ContextId} {σ : Situation} {selection : Selection} (hm : e.marker? element = some m)
    (hc : e.situation? c = some σ) (h : Selector.pushed e k element c = .ok selection) :
    Denotes e ((m :: σ).take k) selection := by
  have pushed : Selection.built (Context.pushWithin k element (e.context c)) = selection := by
    unfold Selector.pushed Context.extend at h
    split at h
    · exact Except.ok.inj h
    · cases h
  subst pushed
  refine denotes_take ?_
  rw [mapM_eq_some_iff]
  exact .cons hm (mapM_eq_some_iff.1 (context_eq_of_situation? hc))

theorem ensures_calleeContext (hs : Sound F s) {cs : ContextSiteId} {σ : Situation}
    {site : CallSiteId} (hc : s.elements.copy? s.elements.sites cs = some (σ, site)) :
    Ensures (calleeContext cs) s fun id t => Adds F s t ∧
      t.elements.situation? id = some (s.selector.calleeSituation σ site) := by
  obtain ⟨c, hcs, hσ⟩ := Elements.copy?_eq_some_iff.1 hc
  refine ensures_settle hs fun selection chosen => ?_
  cases hsel : s.selector with
  | insensitive =>
    rw [hsel] at chosen
    cases chosen
    exact Elements.situation?_emptyId
  | callSite k =>
    rw [hsel, Selector.calleeContext, hcs] at chosen
    exact denotes_pushed rfl hσ chosen
  | object k =>
    rw [hsel, Selector.calleeContext, hcs] at chosen
    cases chosen
    exact hσ
  | type k =>
    rw [hsel, Selector.calleeContext, hcs] at chosen
    cases chosen
    exact hσ

theorem ensures_dispatchContext (hs : Sound F s) {cs : ContextSiteId} {σ : Situation}
    {site : CallSiteId} (hc : s.elements.copy? s.elements.sites cs = some (σ, site))
    {o : ContextObjectId} {v : Value} (ho : s.elements.value? o = some v) :
    Ensures (dispatchContext cs o) s fun id t => Adds F s t ∧ t.elements.situation? id =
      some (s.selector.dispatchSituation s.program.toCatalog σ site v) := by
  obtain ⟨x, hx, ha⟩ := Elements.value?_eq_some_iff.1 ho
  obtain ⟨c, hoc, hτ⟩ := Elements.copy?_eq_some_iff.1 hx
  refine ensures_settle hs fun selection chosen => ?_
  cases hsel : s.selector with
  | insensitive =>
    rw [hsel] at chosen
    cases chosen
    exact Elements.situation?_emptyId
  | callSite k =>
    obtain ⟨d, hcs, hσ⟩ := Elements.copy?_eq_some_iff.1 hc
    rw [hsel, Selector.dispatchContext, Selector.calleeContext, hcs] at chosen
    exact denotes_pushed rfl hσ chosen
  | object k =>
    rw [hsel, Selector.dispatchContext, hoc] at chosen
    exact denotes_pushed (by rw [Elements.marker?, ha]; rfl) hτ chosen
  | type k =>
    rw [hsel, Selector.dispatchContext, hoc] at chosen
    change (Selector.known ((s.elements.heap.get? x).bind (Selector.allocatorType? s.catalog)) >>=
      fun type => Selector.pushed s.elements k (.type type) c) = .ok selection at chosen
    rw [ha, Option.bind_some] at chosen
    cases ht : Selector.allocatorType? s.catalog v.object with
    | none =>
      rw [ht] at chosen
      cases chosen
    | some type =>
      rw [ht] at chosen
      have same : s.program.toCatalog.allocatorType v.object = type := by
        rw [Catalog.allocatorType]
        exact (congrArg (Option.getD · _) ht).trans (Option.getD_some ..)
      rw [Selector.dispatchSituation, same]
      exact denotes_pushed rfl hτ chosen

theorem ensures_heapContext (hs : Sound F s) {cm : ContextMethodId} {σ : Situation} {m : MethodId}
    (hc : s.elements.copy? s.elements.methods cm = some (σ, m)) :
    Ensures (heapContext cm) s fun id t => Adds F s t ∧
      t.elements.situation? id = some (s.selector.heapSituation σ) := by
  obtain ⟨c, hcm, hσ⟩ := Elements.copy?_eq_some_iff.1 hc
  have context := context_eq_of_situation? hσ
  have length : σ.length = (s.elements.context c).length :=
    (mapM_eq_some_iff.1 context).length_eq.symm
  refine ensures_settle hs fun selection chosen => ?_
  unfold Selector.heapContext at chosen
  unfold Selector.heapSituation
  split at chosen
  next small =>
    cases chosen
    rw [show s.selector.limit - 1 = 0 by omega, List.take_zero]
    exact Elements.situation?_emptyId
  next =>
    rw [hcm] at chosen
    simp only [Selector.known, pure_bind] at chosen
    split at chosen
    next short =>
      cases chosen
      rw [List.take_of_length_le (by omega)]
      exact hσ
    next =>
      cases chosen
      exact denotes_take context

/-! ### New flows -/

theorem mem_passing {k : FlowKind} {objects : Objects} {o : ContextObjectId} :
    o ∈ s.passing k objects ↔ o ∈ objects ∧ s.passes k o = true := by
  cases k with
  | cast type => exact HybridSet.mem_filter
  | _ => simp [Solver.passing, Solver.passes]

theorem passes_iff {k : FlowKind} {o : ContextObjectId} {v : Value}
    (ho : s.elements.value? o = some v) : s.passes k o = true ↔ s.program.Passes k v := by
  cases k with
  | cast type =>
    rw [Solver.passes, Elements.objectType?_of_value? ho]
    rfl
  | _ => simp [Solver.passes, Program.Passes]

/-- Objects that are passed on arrive, or are known not to pass. -/
theorem extends_propagate {m : NodeId} {k : FlowKind} {objects : Objects} :
    Ensures (propagate m k objects) s fun _ t => t = s.uniteInto m (s.passing k objects) ∧
      s.Extends t ∧ ∀ o ∈ objects, t.Carried k m o := by
  unfold propagate
  refine .bind ensures_get ?_
  rintro _ _ ⟨rfl, rfl⟩
  split
  next decided =>
    refine .set ⟨rfl, Solver.extends_uniteInto, fun o ho => ⟨?_, fun pass => ?_⟩⟩
    · rintro type rfl
      have known := List.all_eq_true.1 decided o (HybridSet.mem_toList.2 ho)
      cases ht : s.elements.objectType? o with
      | none => simp [Solver.decides, ht] at known
      | some t => exact ⟨t, Solver.extends_uniteInto.objectType? ht⟩
    · rw [Solver.uniteInto_eq, Solver.scheduleIf_eq] at pass
      exact Solver.mem_uniteInto.2 (.inr ⟨rfl, mem_passing.2 ⟨ho, pass⟩⟩)
  next => exact .throw

/-- Objects that are passed on arrive. -/
theorem ensures_propagate (hs : Sound F s) {m : NodeId} {Q : Place} {k : FlowKind}
    {objects : Objects} (hm : s.place? m = some Q)
    (demand : ∀ o ∈ objects, ∃ v, s.elements.value? o = some v ∧
      (s.program.Passes k v → (F.demands s.program).points Q v)) :
    Ensures (propagate m k objects) s fun _ t => Adds F s t ∧
      ∀ o ∈ objects, t.Carried k m o := by
  refine extends_propagate.mono ?_
  rintro _ _ ⟨rfl, extended, carried⟩
  refine ⟨hs.uniteInto hm fun o ho => ?_, carried⟩
  obtain ⟨mem, pass⟩ := mem_passing.1 ho
  obtain ⟨v, hv, h⟩ := demand o mem
  exact ⟨v, hv, h ((passes_iff hv).1 pass)⟩

/-- The state with a new edge. The objects that its source has passed on are still to follow. -/
theorem sound_addEdge (hs : Sound F s) {f : Flow} {P Q : Place} (hP : s.place? f.source = some P)
    (hQ : s.place? f.target = some Q) (demand : (F.demands s.program).carries P Q f.kind) :
    Sound F { s with flows := (s.flows.add f).2 } := by
  have nodes : (s.flows.add f).2.nodes = s.flows.nodes := FlowGraph.nodes_add
  have place (n : NodeId) : Solver.place? { s with flows := (s.flows.add f).2 } n = s.place? n := by
    rw [Solver.place?, Solver.place?, FlowGraph.pointer?, FlowGraph.pointer?, nodes]
  exact { hs with
    nodes := fun n p hp => hs.nodes n p (by rwa [FlowGraph.pointer?, nodes] at hp)
    points := fun n o ho => by
      rw [place]
      exact hs.points n o ho
    flows := fun f' hf => by
      rw [place, place]
      obtain old | rfl := FlowGraph.has_add.1 hf
      · exact hs.flows f' old
      · exact ⟨P, Q, hP, hQ, demand⟩ }

theorem grows_addEdge {f : Flow} : s.Grows { s with flows := (s.flows.add f).2 } :=
  { Solver.Grows.refl s with
    nodes := by
      rw [FlowGraph.nodes_add]
      exact .refl _
    edges := FlowGraph.within_edges_add
    calls := fun _ => .of_queue }

/-- A new edge only adds to a state once what its source has passed on has arrived. -/
theorem extends_of_addEdge {f : Flow} {t : Solver}
    (rest : Solver.Extends { s with flows := (s.flows.add f).2 } t)
    (carried : ∀ o ∈ s.points.propagatedOf f.source, t.Carried f.kind f.target o) :
    s.Extends t where
  toGrows := grows_addEdge.trans rest.toGrows
  propagated := rest.propagated
  sameCalls := rest.sameCalls
  queued := rest.queued
  announced := rest.announced
  fresh f' hf := by
    obtain h | caught := rest.fresh f' hf
    · refine (FlowGraph.has_add.1 h).imp_right ?_
      rintro rfl o ho
      rw [rest.propagated] at ho
      exact carried o ho
    · exact .inr caught
  scheduled h := rest.scheduled ⟨h.filed.add, h.apart, h.waiting⟩

theorem ensures_addEdge (hs : Sound F s) {n m : NodeId} {P Q : Place} {k : FlowKind}
    (hP : s.place? n = some P) (hQ : s.place? m = some Q)
    (demand : (F.demands s.program).carries P Q k) :
    Ensures (do
      let fresh ← change fun s =>
        let (id, flows) := s.flows.add ⟨n, m, k⟩
        (id.isSome, { s with flows })
      if fresh then propagate m k ((← get).points.propagatedOf n)) s fun _ t =>
        Adds F s t ∧ t.reading.carries P Q k := by
  refine .bind ensures_change ?_
  rintro _ _ ⟨rfl, rfl⟩
  obtain ⟨old, eq⟩ | ⟨-, id, edges, -, eq⟩ := s.flows.add_cases ⟨n, m, k⟩
  · simp only [eq]
    exact .pure ⟨.refl hs, n, m, hP, hQ, old⟩
  · have sound := sound_addEdge hs (f := ⟨n, m, k⟩) hP hQ demand
    have grows : s.Grows { s with flows := (s.flows.add ⟨n, m, k⟩).2 } := grows_addEdge
    have new : FlowGraph.Has (s.flows.add ⟨n, m, k⟩).2 ⟨n, m, k⟩ := FlowGraph.has_add.2 (.inr rfl)
    simp only [eq, Option.isSome_some, if_true] at sound grows new ⊢
    refine .bind ensures_get ?_
    rintro _ _ ⟨rfl, rfl⟩
    have arrives : ∀ o ∈ s.points.propagatedOf n, ∃ v, s.elements.value? o = some v ∧
        (s.program.Passes k v → (F.demands s.program).points Q v) := fun o ho => by
      obtain ⟨P', v, hP', hv, h⟩ := hs.points n o (PendingStore.mem_all.2 (.inr ho))
      cases hP.symm.trans hP'
      exact ⟨v, hv, fun pass => ⟨demand.2 v h.1 pass, demand.1⟩⟩
    refine (ensures_propagate sound (grows.place? hQ) arrives).mono ?_
    rintro _ t ⟨adds, carried⟩
    exact ⟨⟨extends_of_addEdge (f := ⟨n, m, k⟩) (by rw [eq]; exact adds.toExtends) carried,
      adds.sound⟩, n, m, adds.place? (grows.place? hP), adds.place? (grows.place? hQ), adds.has new⟩

/-- A new flow, whose target has received whatever its source has passed on. -/
theorem ensures_addFlow (hs : Sound F s) {p q : Pointer} {P Q : Place} {k : FlowKind}
    (hp : s.elements.place? p = some P) (hq : s.elements.place? q = some Q)
    (demand : (F.demands s.program).carries P Q k) :
    Ensures (addFlow p q k) s fun _ t => Adds F s t ∧ t.reading.carries P Q k := by
  refine .bind ensures_change ?_
  rintro _ _ ⟨rfl, rfl⟩
  obtain ⟨adds, hP⟩ := hs.internNode hp
  refine .bind ensures_change ?_
  rintro _ _ ⟨rfl, rfl⟩
  obtain ⟨adds', hQ⟩ := adds.sound.internNode (p := q) hq
  refine (ensures_addEdge adds'.sound (adds'.place? hP) hQ demand).mono ?_
  rintro _ t ⟨adds'', granted⟩
  exact ⟨(adds.trans adds').trans adds'', granted⟩

theorem ensures_addVarFlow (hs : Sound F s) {c d : ContextId} {σ τ : Situation} {v w : VarId}
    {k : FlowKind} (hc : s.elements.situation? c = some σ) (hd : s.elements.situation? d = some τ)
    (demand : (F.demands s.program).carries (.var σ v) (.var τ w) k) :
    Ensures (addVarFlow c v d w k) s fun _ t =>
      Adds F s t ∧ t.reading.carries (.var σ v) (.var τ w) k := by
  refine .bind ensures_change ?_
  rintro _ _ ⟨rfl, rfl⟩
  obtain ⟨adds, hv⟩ := hs.internVar hc (v := v)
  refine .bind ensures_change ?_
  rintro _ _ ⟨rfl, rfl⟩
  obtain ⟨adds', hw⟩ := adds.sound.internVar (adds.elements.situation? hd) (v := w)
  refine (ensures_addFlow adds'.sound (Elements.place?_var (adds'.elements.var? hv))
    (Elements.place?_var hw) demand).mono ?_
  rintro _ t ⟨adds'', granted⟩
  exact ⟨(adds.trans adds').trans adds'', granted⟩

end Solve
end PointsTo
