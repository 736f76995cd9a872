import PointsTo.Proofs.Safety.States

/-!
The single changes of a state: ids that name something are added, objects and flows only where they
may go, and calls only where they may come from.
-/
namespace PointsTo

open Facts

variable {p : Program} {sel : Selector} {promised : Option (ContextId × MethodId)} {s t : Solver}

/-- What a state has more than an earlier one is in order. -/
structure Gains (p : Program) (sel : Selector) (promised : Option (ContextId × MethodId))
    (s t : Solver) : Prop where
  program : t.program = s.program
  selector : t.selector = s.selector
  elements : t.elements.Ranged p.toCatalog sel.limit
  nodes : ∀ {n q}, t.flows.pointer? n = some q →
    s.flows.pointer? n = some q ∨ t.Names p.toCatalog q
  points : ∀ {n o}, o ∈ t.points.all n → o ∈ s.points.all n ∨
    (∃ q, t.flows.pointer? n = some q ∧ t.Open p.toCatalog promised q) ∧
      ∃ pair, t.elements.objects.get? o = some pair
  flows : ∀ {f}, t.flows.Has f → s.flows.Has f ∨ (∃ q, t.flows.pointer? f.source = some q) ∧
    (∃ q, t.flows.pointer? f.target = some q ∧ t.Open p.toCatalog promised q) ∧
      ∀ type, f.kind = .cast type → type.index < p.types.size
  filed : s.flows.Filed → t.flows.Filed
  queued : ∀ {e}, e ∈ t.callQueue.toList → e ∈ s.callQueue.toList ∨ t.Placed p.toCatalog e
  recorded : ∀ {call}, t.calls.Records call →
    s.calls.Records call ∨ t.Settled p.toCatalog call.edge
  reached : ∀ {cm}, t.calls.Reaches cm →
    s.calls.Reaches cm ∨ ∃ pair, t.elements.methods.get? cm = some pair
  announced : ∀ {e}, e ∈ t.events.toList → e ∈ s.events.toList ∨ t.Vouches p.toCatalog e

theorem Gains.of_elements {elements : Elements} {reachedMethods : IndexSet MethodId}
    {findings : List (String × Finding)} {log : Array Message}
    (ranged : elements.Ranged p.toCatalog sel.limit) :
    Gains p sel promised s { s with elements, reachedMethods, findings, log } :=
  ⟨rfl, rfl, ranged, .inl, .inl, .inl, id, .inl, .inl, .inl, .inl⟩

namespace Grounded

/-- A state in order becomes another one when what it has more is in order, and what was alive is
so under another promise. -/
theorem become {promised' : Option (ContextId × MethodId)} (h : Grounded p sel promised s)
    (st : s.Keeps t) (alive : ∀ c m, s.Alive promised c m → t.Alive promised' c m)
    (gains : Gains p sel promised' s t) : Grounded p sel promised' t where
  wellFormed := h.wellFormed
  program := gains.program.trans h.program
  selector := gains.selector.trans h.selector
  elements := gains.elements
  nodes n q hq := (gains.nodes hq).elim (fun old => (h.nodes n q old).kept st) id
  points n o ho := by
    obtain old | new := gains.points ho
    · obtain ⟨⟨q, hq, can⟩, known⟩ := h.points n o old
      exact ⟨⟨q, st.nodes n q hq, can.kept st alive⟩, known.imp (st.elements.objects o)⟩
    · exact new
  flows f hf := by
    obtain old | new := gains.flows hf
    · obtain ⟨source, ⟨q, hq, can⟩, cast⟩ := h.flows f old
      exact ⟨source.imp (st.nodes _), ⟨q, st.nodes _ q hq, can.kept st alive⟩, cast⟩
    · exact new
  filed := gains.filed h.filed
  queued e he := (gains.queued he).elim (fun old => (h.queued e old).kept st) id
  recorded call hc := (gains.recorded hc).elim (fun old => (h.recorded call old).kept st) id
  reached cm hcm := (gains.reached hcm).elim
    (fun old => (h.reached cm old).imp (st.elements.methods cm)) id
  announced e he := (gains.announced he).elim (fun old => (h.announced e old).kept st) id

theorem promise (h : Grounded p sel none s) : Grounded p sel promised s :=
  h.become (.refl s) (fun _ _ hm => hm.elim nofun .inr) (.of_elements h.elements)

/-- A promise is kept when the method is reached or a call of it is queued. -/
theorem keep {c : ContextId} {m : MethodId} (h : Grounded p sel (some (c, m)) s)
    (alive : s.Alive none c m) : Grounded p sel none s :=
  h.become (.refl s) (fun _ _ hm => hm.elim (fun same => by cases same; exact alive) .inr)
    (.of_elements h.elements)

variable (h : Grounded p sel promised s)
include h

theorem gain (st : s.Later t) (gains : Gains p sel promised s t) : Advances p sel promised s t :=
  ⟨st, h.become st.toKeeps (fun _ _ => .later st) gains⟩

/-! ### Ids -/

theorem withElements {e : Elements} (w : s.elements.Within e)
    (ranged : e.Ranged p.toCatalog sel.limit) :
    Advances p sel promised s { s with elements := e } :=
  h.gain ⟨⟨w, .refl _, fun _ => id⟩, fun _ => id⟩ (.of_elements ranged)

theorem internContext {c : Context} :
    Advances p sel promised s { s with elements := (s.elements.internContext c).2 } :=
  h.withElements Elements.within_internContext h.elements.internContext

section Contexts

variable {c : ContextId} (hc : s.elements.Knows p.toCatalog sel.limit c)
include hc

theorem internVar {v : VarId} (hv : v.index < p.vars.size) :
    Advances p sel promised s (s.internVar c v).2 ∧
      (s.internVar c v).2.elements.vars.get? (s.internVar c v).1 = some ⟨c, v⟩ :=
  ⟨h.withElements Elements.within_internVar (h.elements.internVar hc hv), CopyTable.get?_intern⟩

theorem internObject {o : ObjectId} (ho : ∃ a, s.elements.heap.get? o = some a) :
    Advances p sel promised s (s.internObject c o).2 ∧
      (s.internObject c o).2.elements.objects.get? (s.internObject c o).1 = some ⟨c, o⟩ :=
  ⟨h.withElements Elements.within_internObject (h.elements.internObject hc ho),
    CopyTable.get?_intern⟩

theorem internMethod {m : MethodId} (hm : m.index < p.methods.size) :
    Advances p sel promised s (s.internMethod c m).2 ∧
      (s.internMethod c m).2.elements.methods.get? (s.internMethod c m).1 = some ⟨c, m⟩ :=
  ⟨h.withElements Elements.within_internMethod (h.elements.internMethod hc hm),
    CopyTable.get?_intern⟩

theorem internSite {site : CallSiteId} (hs : site.index < p.callSites.size) :
    Advances p sel promised s (s.internSite c site).2 ∧
      (s.internSite c site).2.elements.sites.get? (s.internSite c site).1 = some ⟨c, site⟩ :=
  ⟨h.withElements Elements.within_internSite (h.elements.internSite hc hs),
    CopyTable.get?_intern⟩

end Contexts

theorem internHeap {a : AbstractObject} (makes : p.Makes a) :
    let t := { s with elements := { s.elements with heap := (s.elements.heap.intern a).2 } }
    Advances p sel promised s t ∧ ∃ b, t.elements.heap.get? (s.elements.heap.intern a).1 = some b :=
  ⟨h.withElements { Elements.Within.refl s.elements with heap := Table.within_intern }
    (h.elements.internHeap makes), (Table.intern_spec s.elements.heap a).2.1.imp fun _ => And.left⟩

theorem allocate {m : MethodId} {d : MethodDecl} {i : Nat} {type : TypeId}
    (hd : p.methods[m]? = some d) (hi : i < d.body.size) (ht : type.index < p.types.size) :
    Advances p sel promised s (s.allocate m i type).2 ∧
      ∃ a, (s.allocate m i type).2.elements.heap.get? (s.allocate m i type).1 = some a :=
  h.internHeap ⟨⟨d, hd, hi⟩, ht, by rintro _ ⟨⟩; exact Roster.lt_size hd⟩

theorem mock {description : String} (allowed : description ∈ mockDescriptions) {site : CallSiteId}
    (hs : site.index < p.callSites.size) {type : TypeId} (ht : type.index < p.types.size)
    {container : Option MethodId} (hm : ∀ m, container = some m → m.index < p.methods.size) :
    Advances p sel promised s (s.mock description site type container).2 ∧
      ∃ a, (s.mock description site type container).2.elements.heap.get?
        (s.mock description site type container).1 = some a :=
  h.internHeap ⟨⟨allowed, hs⟩, ht, hm⟩

theorem internNode {q : Pointer} (hq : s.Names p.toCatalog q) :
    Advances p sel promised s (s.internNode q).2 ∧
      (s.internNode q).2.flows.pointer? (s.internNode q).1 = some q := by
  have st : s.Later (s.internNode q).2 := Solver.extends_internNode.later
  refine ⟨h.gain st ⟨rfl, rfl, h.elements, fun hq' => ?_, .inl, .inl, id, .inl, .inl, .inl, .inl⟩,
    FlowGraph.pointer?_internNode⟩
  refine ((Table.intern_spec s.flows.nodes q).2.2 _ _ hq').imp_right ?_
  rintro ⟨-, rfl⟩
  exact hq.kept st.toKeeps

/-! ### Objects -/

theorem withPoints {points : PendingStore NodeId ContextObjectId} {worklist : Queue NodeId}
    (new : ∀ n o, o ∈ points.all n → o ∈ s.points.all n ∨
      (∃ q, s.flows.pointer? n = some q ∧ s.Open p.toCatalog promised q) ∧
        ∃ pair, s.elements.objects.get? o = some pair) :
    Advances p sel promised s { s with points, worklist } :=
  h.gain ⟨⟨.refl _, .refl _, fun _ => id⟩, fun _ => id⟩
    ⟨rfl, rfl, h.elements, .inl, new _ _, .inl, id, .inl, .inl, .inl, .inl⟩

theorem addToNode {n : NodeId} {q : Pointer} {o : ContextObjectId}
    (hn : s.flows.pointer? n = some q) (hq : s.Open p.toCatalog promised q)
    (ho : ∃ pair, s.elements.objects.get? o = some pair) :
    Advances p sel promised s (s.addToNode n o) := by
  rw [Solver.addToNode_eq, Solver.scheduleIf_eq]
  refine h.withPoints fun m o' mem => (PendingStore.mem_all_add.1 mem).imp_right ?_
  rintro ⟨rfl, rfl⟩
  exact ⟨⟨q, hn, hq⟩, ho⟩

theorem uniteInto {n : NodeId} {q : Pointer} {objects : Objects}
    (hn : s.flows.pointer? n = some q) (hq : s.Open p.toCatalog promised q)
    (known : ∀ o ∈ objects, ∃ pair, s.elements.objects.get? o = some pair) :
    Advances p sel promised s (s.uniteInto n objects) := by
  rw [Solver.uniteInto_eq, Solver.scheduleIf_eq]
  refine h.withPoints fun m o mem => (PendingStore.mem_all_union.1 mem).imp_right ?_
  rintro ⟨rfl, new⟩
  exact ⟨⟨q, hn, hq⟩, known o new⟩

theorem addVarObject {x : ContextVarId} (hx : s.Open p.toCatalog promised (.var x))
    {o : ContextObjectId} (ho : ∃ pair, s.elements.objects.get? o = some pair) :
    Advances p sel promised s (s.addVarObject x o) := by
  obtain ⟨adds, hn⟩ := h.internNode hx.names
  exact adds.trans (adds.grounded.addToNode hn (hx.later adds.toLater) ho)

/-- An object may be added to a variable of a method that is reached, or about to be. -/
theorem addObjectIn {c d : ContextId} {v : VarId} (hv : s.Admits p.toCatalog sel.limit promised c v)
    (hd : s.elements.Knows p.toCatalog sel.limit d) {o : ObjectId} (ho : ∃ a, s.elements.heap.get? o = some a) :
    Advances p sel promised s (s.addObjectIn c v d o) := by
  obtain ⟨m, owns, -⟩ := hv.2
  obtain ⟨st, hx⟩ := h.internVar hv.1 owns.lt_size
  obtain ⟨tu, hu⟩ := st.grounded.internObject (hd.within st.elements) ho
  have su := st.trans tu
  refine su.trans (su.grounded.addVarObject ⟨c, v, tu.elements.vars _ _ hx, (hv.later su.toLater).2⟩ ?_)
  exact ⟨_, hu⟩

theorem addObjectsIn {c : ContextId} {v : VarId} (hv : s.Admits p.toCatalog sel.limit promised c v)
    {objects : Objects} (known : ∀ o ∈ objects, ∃ pair, s.elements.objects.get? o = some pair) :
    Advances p sel promised s (s.addObjectsIn c v objects) := by
  unfold Solver.addObjectsIn
  split
  · exact .refl h
  · obtain ⟨m, owns, -⟩ := hv.2
    obtain ⟨st, hx⟩ := h.internVar hv.1 owns.lt_size
    have can : Solver.Open _ p.toCatalog promised (.var (s.internVar c v).1) :=
      ⟨c, v, hx, (hv.later st.toLater).2⟩
    obtain ⟨tu, hn⟩ := st.grounded.internNode can.names
    exact (st.trans tu).trans (tu.grounded.uniteInto hn (can.later tu.toLater) known)

/-! ### Calls, events and results -/

theorem queueCall {e : CallEdge} (he : s.Placed p.toCatalog e) :
    Advances p sel promised s (s.queueCall e) := by
  have st : s.Later (s.queueCall e) := Solver.extends_queueCall.later
  refine h.gain st ⟨rfl, rfl, h.elements, .inl, .inl, .inl, id, fun mem => ?_, .inl, .inl, .inl⟩
  refine (Queue.mem_push.1 mem).imp_right ?_
  rintro rfl
  exact he.kept st.toKeeps

theorem announce {e : Event} (he : s.Vouches p.toCatalog e) :
    Advances p sel promised s (s.announce e) := by
  have st : s.Later (s.announce e) := Solver.extends_announce.later
  refine h.gain st ⟨rfl, rfl, h.elements, .inl, .inl, .inl, id, .inl, .inl, .inl, fun mem => ?_⟩
  refine (Queue.mem_push.1 mem).imp_right ?_
  rintro rfl
  exact he.kept st.toKeeps

/-- Events may be dropped. -/
theorem withEvents {events : Queue Event} (sub : events.toList ⊆ s.events.toList) :
    Advances p sel promised s { s with events } :=
  h.gain ⟨⟨.refl _, .refl _, fun _ => id⟩, fun _ => id⟩
    ⟨rfl, rfl, h.elements, .inl, .inl, .inl, id, .inl, .inl, .inl, fun he => .inl (sub he)⟩

theorem warn {text : String} : Advances p sel promised s (s.warn text) :=
  h.gain ⟨⟨.refl _, .refl _, fun _ => id⟩, fun _ => id⟩ (.of_elements h.elements)

theorem store {key : String} {finding : Finding} :
    Advances p sel promised s (s.store key finding) :=
  h.gain ⟨⟨.refl _, .refl _, fun _ => id⟩, fun _ => id⟩ (.of_elements h.elements)

theorem meet {reachedMethods : IndexSet MethodId} :
    Advances p sel promised s { s with reachedMethods } :=
  h.gain ⟨⟨.refl _, .refl _, fun _ => id⟩, fun _ => id⟩ (.of_elements h.elements)

end Grounded

end PointsTo
