import PointsTo.Proofs.Constraints
import PointsTo.Proofs.Ensures
import PointsTo.Proofs.Sets

/-!
How the state of an analysis grows. Whatever is known stays known, an object that a node has passed
on has arrived at the end of every flow that leaves the node, and a node with objects to pass on is
on the work list.
-/
namespace PointsTo

open Facts

theorem Queue.mem_push {α : Type} {q : Queue α} {a b : α} :
    b ∈ (q.push a).toList ↔ b ∈ q.toList ∨ b = a := by
  rw [Queue.toList_push, List.mem_append, List.mem_singleton]

namespace FlowGraph

variable {g : FlowGraph} {f : Flow}

def Has (g : FlowGraph) (f : Flow) : Prop := ∃ i, g.edges.get? i = some f

/-- The edges are filed under their sources. -/
def Filed (g : FlowGraph) : Prop :=
  ∀ n m k, (m, k) ∈ g.out n ↔ g.Has ⟨n, m, k⟩

theorem node?_eq_some_iff {p : Pointer} {n : NodeId} : g.node? p = some n ↔ g.pointer? n = some p :=
  ⟨Table.get?_of_find?, Table.find?_of_get?⟩

theorem pointer?_internNode {p : Pointer} :
    (g.internNode p).2.pointer? (g.internNode p).1 = some p :=
  Table.get?_intern_self

/-- `add` changes nothing, or it adds one edge and files it under its source. -/
theorem add_cases (g : FlowGraph) (f : Flow) :
    (g.Has f ∧ g.add f = (none, g)) ∨
      ¬ g.Has f ∧ ∃ id edges, (∀ i a, edges.get? i = some a ↔ g.edges.get? i = some a ∨
          i = id ∧ f = a) ∧
        g.add f = (some id, { g with
          edges
          outgoing := g.outgoing.insert f.source ((f.target, f.kind) :: g.out f.source) }) := by
  have spec := g.edges.add_spec f
  unfold add
  rcases h : g.edges.add f with ⟨_ | id, edges⟩ <;> rw [h] at spec
  · obtain ⟨-, same, i, a, ha, eq⟩ | ⟨h, -⟩ := spec
    · cases show a = f from eq
      cases show edges = g.edges from same
      exact .inl ⟨⟨i, ha⟩, rfl⟩
    · cases h
  · obtain ⟨h, -⟩ | ⟨h, fresh, all⟩ := spec
    · cases h
    · cases h
      exact .inr ⟨fun ⟨i, hi⟩ => fresh i f hi rfl, _, edges, all, rfl⟩

theorem nodes_add : (g.add f).2.nodes = g.nodes := by
  obtain ⟨-, eq⟩ | ⟨-, id, edges, -, eq⟩ := g.add_cases f <;> rw [eq]

theorem has_add {f' : Flow} : (g.add f).2.Has f' ↔ g.Has f' ∨ f' = f := by
  obtain ⟨old, eq⟩ | ⟨-, id, edges, all, eq⟩ := g.add_cases f <;> rw [eq]
  · exact ⟨.inl, fun h => h.elim (fun h => h) (· ▸ old)⟩
  · simp only [Has, all]
    constructor
    · rintro ⟨i, h | ⟨-, rfl⟩⟩
      · exact .inl ⟨i, h⟩
      · exact .inr rfl
    · rintro (⟨i, h⟩ | rfl)
      · exact ⟨i, .inl h⟩
      · exact ⟨id, .inr ⟨rfl, rfl⟩⟩

theorem within_edges_add : g.edges.Within (g.add f).2.edges := by
  intro i a ha
  obtain ⟨-, eq⟩ | ⟨-, id, edges, all, eq⟩ := g.add_cases f <;> rw [eq]
  · exact ha
  · exact (all i a).2 (.inl ha)

theorem Filed.add (h : g.Filed) : (g.add f).2.Filed := by
  intro n m k
  rw [has_add, ← h n m k]
  obtain ⟨old, eq⟩ | ⟨-, id, edges, all, eq⟩ := g.add_cases f <;> rw [eq]
  · exact ⟨.inl, fun h' => h'.elim (fun h => h) fun eq => (h n m k).2 (eq ▸ old)⟩
  · simp only [out, Std.TreeMap.getD_insert, Coded.compare_eq_iff]
    by_cases same : f.source = n
    · subst same
      cases f
      simp only [if_true, List.mem_cons, Prod.mk.injEq, Flow.mk.injEq, true_and]
      exact or_comm
    · rw [if_neg same]
      refine ⟨.inl, fun h' => h'.elim (fun h => h) fun eq => ?_⟩
      exact absurd (congrArg Flow.source eq).symm same

end FlowGraph

/-- The calls with a key are filed in the order in which they were found. -/
theorem CallIndex.callsOf_eq {kind : Entity} {key : Call → Id kind}
    {calls : Table .call Call.ends} (t : CallIndex key calls) (k : Id kind) :
    t.callsOf k = (calls.toList.filter fun c => key c == k).reverse := by
  rw [callsOf, t.filed_eq, List.filterMap_reverse, Table.filterMap_idsWhere]

theorem CallIndex.mem_callsOf {kind : Entity} {key : Call → Id kind}
    {calls : Table .call Call.ends} {t : CallIndex key calls} {k : Id kind} {c : Call} :
    c ∈ t.callsOf k ↔ (∃ i, calls.get? i = some c) ∧ key c = k := by
  rw [callsOf_eq, List.mem_reverse, List.mem_filter, Table.mem_toList_iff, beq_iff_eq]

namespace CallGraph

variable {g h : CallGraph} {m x : ContextMethodId} {c : Call}

def Reaches (g : CallGraph) (m : ContextMethodId) : Prop := ∃ i, g.reached.get? i = some m

def Records (g : CallGraph) (c : Call) : Prop := ∃ i, g.calls.get? i = some c

theorem mem_edges {e : CallEdge} : e ∈ g.edges ↔ ∃ c, g.Records c ∧ c.edge = e := by
  simp only [edges, List.mem_map, Table.mem_toList_iff, Records]

theorem mem_calleesOfSite {cs : ContextSiteId} :
    m ∈ g.calleesOfSite cs ↔ ∃ c, g.Records c ∧ c.ends = (cs, m) := by
  simp only [calleesOfSite, List.mem_map, List.mem_reverse, CallIndex.mem_callsOf]
  constructor
  · rintro ⟨c, ⟨recorded, rfl⟩, rfl⟩
    exact ⟨c, recorded, rfl⟩
  · rintro ⟨c, recorded, ends⟩
    obtain ⟨rfl, rfl⟩ := Prod.mk.inj ends
    exact ⟨c, ⟨recorded, rfl⟩, rfl⟩

theorem mem_callersOf {e : CallEdge} :
    e ∈ g.callersOf m ↔ ∃ c, g.Records c ∧ c.edge = e ∧ e.callee = m := by
  simp only [callersOf, List.mem_map, CallIndex.mem_callsOf]
  constructor
  · rintro ⟨c, ⟨recorded, callee⟩, rfl⟩
    exact ⟨c, recorded, rfl, callee⟩
  · rintro ⟨c, recorded, rfl, callee⟩
    exact ⟨c, ⟨recorded, callee⟩, rfl⟩

theorem mem_calleesOf {e : CallEdge} : e ∈ g.calleesOf m ↔ g.Records ⟨m, e⟩ := by
  simp only [calleesOf, List.mem_map, CallIndex.mem_callsOf]
  constructor
  · rintro ⟨c, ⟨recorded, rfl⟩, rfl⟩
    exact recorded
  · intro recorded
    exact ⟨_, ⟨recorded, rfl⟩, rfl⟩

theorem isReached_iff : g.isReached m = true ↔ g.Reaches m := by
  simp only [isReached, Table.contains_iff, Reaches]
  constructor
  · rintro ⟨i, a, ha, rfl⟩
    exact ⟨i, ha⟩
  · rintro ⟨i, hi⟩
    exact ⟨i, m, hi, rfl⟩

theorem not_isReached_iff : (!g.isReached m) = true ↔ ¬ g.Reaches m := by
  rw [Bool.not_eq_true', ← Bool.not_eq_true, isReached_iff]

/-- `reach` reaches one more method, unless it has been reached before. -/
theorem reach_cases (g : CallGraph) (m : ContextMethodId) :
    (g.Reaches m ∧ g.reach m = (false, g)) ∨
      ¬ g.Reaches m ∧ (g.reach m).1 = true ∧ g.reached.Within (g.reach m).2.reached ∧
        (g.reach m).2.calls = g.calls ∧
        ∀ x, (g.reach m).2.Reaches x ↔ g.Reaches x ∨ x = m := by
  have spec := g.reached.add_spec m
  unfold reach
  rcases hm : g.reached.add m with ⟨_ | id, reached⟩ <;> rw [hm] at spec
  · obtain ⟨-, same, i, a, ha, eq⟩ | ⟨h, -⟩ := spec
    · cases show a = m from eq
      cases show reached = g.reached from same
      exact .inl ⟨⟨i, ha⟩, rfl⟩
    · cases h
  · obtain ⟨h, -⟩ | ⟨h, fresh, all⟩ := spec
    · cases h
    · refine .inr ⟨fun ⟨i, hi⟩ => fresh i m hi rfl, rfl, fun i a ha => (all i a).2 (.inl ha),
        rfl, fun x => ?_⟩
      simp only [Reaches, all]
      constructor
      · rintro ⟨i, h | ⟨-, rfl⟩⟩
        · exact .inl ⟨i, h⟩
        · exact .inr rfl
      · rintro (⟨i, h⟩ | rfl)
        · exact ⟨i, .inl h⟩
        · exact ⟨_, .inr ⟨rfl, rfl⟩⟩

theorem reaches_reach : (g.reach m).2.Reaches x ↔ g.Reaches x ∨ x = m := by
  obtain ⟨old, eq⟩ | ⟨-, -, -, -, all⟩ := g.reach_cases m
  · rw [eq]
    exact ⟨.inl, fun h => h.elim id (· ▸ old)⟩
  · exact all x

theorem within_reach : g.reached.Within (g.reach m).2.reached := by
  obtain ⟨-, eq⟩ | ⟨-, -, within, -, -⟩ := g.reach_cases m
  · rw [eq]
    exact .refl _
  · exact within

theorem calls_reach : (g.reach m).2.calls = g.calls := by
  obtain ⟨-, eq⟩ | ⟨-, -, -, same, -⟩ := g.reach_cases m
  · rw [eq]
  · exact same

theorem records_record {c c' : Call} {fresh : g.calls.positions[c'.ends]? = none} :
    (g.record c' fresh).Records c ↔ g.Records c ∨ c = c' := by
  simp only [Records, record, Table.get?_push]
  constructor
  · rintro ⟨i, h | ⟨-, rfl⟩⟩
    · exact .inl ⟨i, h⟩
    · exact .inr rfl
  · rintro (⟨i, h⟩ | rfl)
    · exact ⟨i, .inl h⟩
    · exact ⟨_, .inr ⟨rfl, rfl⟩⟩

/-- `add` records one more call and reaches its ends, unless a call with the same ends has been
recorded before. -/
theorem add_cases (g : CallGraph) (caller : ContextMethodId) (edge : CallEdge) :
    ((∃ c, g.Records c ∧ c.ends = (edge.site, edge.callee)) ∧ g.add caller edge = (false, g)) ∨
      (¬ ∃ c, g.Records c ∧ c.ends = (edge.site, edge.callee)) ∧ (g.add caller edge).1 = true ∧
        g.reached.Within (g.add caller edge).2.reached ∧
        Table.Within g.calls (g.add caller edge).2.calls ∧
        (∀ x, (g.add caller edge).2.Reaches x ↔ g.Reaches x ∨ x = caller ∨ x = edge.callee) ∧
        ∀ c, (g.add caller edge).2.Records c ↔ g.Records c ∨ c = ⟨caller, edge⟩ := by
  unfold add
  dsimp only
  split
  next n known =>
    obtain ⟨c, hc, ends⟩ := Table.exists_of_position known
    exact .inl ⟨⟨c, ⟨_, hc⟩, ends⟩, rfl⟩
  next fresh =>
    refine .inr ⟨fun ⟨c, ⟨i, hc⟩, ends⟩ => Table.key_ne_of_fresh fresh hc ends, rfl,
      within_reach.trans within_reach, ?_, fun x => ?_, fun c => ?_⟩
    · rw [calls_reach, calls_reach]
      exact Table.within_push fresh
    · rw [reaches_reach, reaches_reach, or_assoc]
      rfl
    · simp only [Records, calls_reach]
      exact records_record

/-- A call that is added reaches its callee; its caller has been reached before. -/
theorem reaches_add {g : CallGraph} {caller : ContextMethodId} {edge : CallEdge}
    (fresh : ¬ ∃ c, g.Records c ∧ c.ends = (edge.site, edge.callee)) (reached : g.Reaches caller)
    (x : ContextMethodId) :
    (g.add caller edge).2.Reaches x ↔ g.Reaches x ∨ x = edge.callee := by
  obtain ⟨-, -, -, -, reaches, -⟩ := (g.add_cases caller edge).resolve_left fun old => fresh old.1
  rw [reaches, ← or_assoc]
  exact or_congr_left (or_iff_left_of_imp fun same => same ▸ reached)

end CallGraph

namespace Solver

/-! ### What a state says -/

/-- The meaning of a node. -/
def place? (s : Solver) (n : NodeId) : Option Place :=
  (s.flows.pointer? n).bind s.elements.place?

/-- Whether a value is among the objects of a place. -/
def Points (s : Solver) (P : Place) (v : Value) : Prop :=
  ∃ p o, s.elements.place? p = some P ∧ s.elements.value? o = some v ∧ o ∈ s.pointsTo p

def Flows (s : Solver) (P Q : Place) (k : FlowKind) : Prop :=
  ∃ n m, s.place? n = some P ∧ s.place? m = some Q ∧ s.flows.Has ⟨n, m, k⟩

/-- The calls found so far, recorded or not. -/
def Pending (s : Solver) (site : ContextSiteId) (callee : ContextMethodId) : Prop :=
  (∃ e ∈ s.callQueue.toList, e.site = site ∧ e.callee = callee) ∨
    ∃ call, s.calls.Records call ∧ call.ends = (site, callee)

/-- Whether a call has been found. -/
def Calls (s : Solver) (c : Situation) (site : CallSiteId) (c' : Situation) (m : MethodId) :
    Prop :=
  ∃ contextSite callee, s.elements.copy? s.elements.sites contextSite = some (c, site) ∧
    s.elements.copy? s.elements.methods callee = some (c', m) ∧ s.Pending contextSite callee

/-- What the state grants: a call counts once it is found, and a flow once its edge is there. -/
def reading (s : Solver) : Reading where
  points := s.Points
  carries := s.Flows
  calls via c site c' m :=
    (∃ decl, s.program.callSites[site]? = some decl ∧ decl.kind.via? = some via) ∧
    s.Calls c site c' m

theorem points_iff {s : Solver} {P : Place} {v : Value} :
    s.Points P v ↔ ∃ n o, s.place? n = some P ∧ s.elements.value? o = some v ∧
      o ∈ s.points.all n := by
  constructor
  · rintro ⟨p, o, hp, ho, mem⟩
    rw [pointsTo] at mem
    split at mem
    next n hn =>
      exact ⟨n, o, Option.bind_eq_some_iff.2 ⟨p, FlowGraph.node?_eq_some_iff.1 hn, hp⟩, ho, mem⟩
    next => exact absurd mem HybridSet.not_mem_empty
  · rintro ⟨n, o, hn, ho, mem⟩
    obtain ⟨p, hp, hP⟩ := Option.bind_eq_some_iff.1 hn
    refine ⟨p, o, hP, ho, ?_⟩
    rw [pointsTo, FlowGraph.node?_eq_some_iff.2 hp]
    exact mem

theorem exists_object_of_points {s : Solver} {P : Place} {v : Value} (points : s.Points P v) :
    ∃ o, s.elements.heap.get? o = some v.object := by
  obtain ⟨_, x, -, hx, -⟩ := points_iff.1 points
  obtain ⟨o, -, ho⟩ := Elements.value?_eq_some_iff.1 hx
  exact ⟨o, ho⟩

/-- A call without a target on a receiver has been announced. -/
def Heralds (s : Solver) (c : Situation) (site : CallSiteId) (v : Value) : Prop :=
  ∃ context o, s.elements.situation? context = some c ∧ s.elements.value? o = some v ∧
    Event.unresolved (some o) context site ∈ s.events.toList

/-! ### Growth -/

/-- Everything known in `s` is known in `t`; a call may have been recorded in the meantime. -/
structure Grows (s t : Solver) : Prop where
  program : t.program = s.program
  selector : t.selector = s.selector
  elements : s.elements.Within t.elements
  nodes : s.flows.nodes.Within t.flows.nodes
  edges : s.flows.edges.Within t.flows.edges
  objects : ∀ n o, o ∈ s.points.all n → o ∈ t.points.all n
  reached : s.calls.reached.Within t.calls.reached
  recorded : Table.Within s.calls.calls t.calls.calls
  calls : ∀ e ∈ s.callQueue.toList, t.Pending e.site e.callee

theorem Pending.of_queue {s : Solver} {e : CallEdge} (h : e ∈ s.callQueue.toList) :
    s.Pending e.site e.callee := .inl ⟨e, h, rfl, rfl⟩

namespace Grows

theorem refl (s : Solver) : s.Grows s where
  program := rfl
  selector := rfl
  elements := .refl _
  nodes := .refl _
  edges := .refl _
  objects _ _ := id
  reached := .refl _
  recorded := .refl _
  calls _ := .of_queue

variable {s t u : Solver}

theorem pending (h : s.Grows t) {site : ContextSiteId} {callee : ContextMethodId}
    (hp : s.Pending site callee) : t.Pending site callee := by
  obtain ⟨e, he, rfl, rfl⟩ | ⟨call, ⟨i, hc⟩, ends⟩ := hp
  · exact h.calls e he
  · exact .inr ⟨call, ⟨i, h.recorded i call hc⟩, ends⟩

theorem trans (st : s.Grows t) (tu : t.Grows u) : s.Grows u where
  program := tu.program.trans st.program
  selector := tu.selector.trans st.selector
  elements := st.elements.trans tu.elements
  nodes := st.nodes.trans tu.nodes
  edges := st.edges.trans tu.edges
  objects n o h := tu.objects n o (st.objects n o h)
  reached := st.reached.trans tu.reached
  recorded := st.recorded.trans tu.recorded
  calls e he := tu.pending (st.calls e he)

variable (h : s.Grows t)
include h

theorem reaches {m : ContextMethodId} (hm : s.calls.Reaches m) : t.calls.Reaches m :=
  hm.imp fun i => h.reached i m

theorem has {f : Flow} (hf : s.flows.Has f) : t.flows.Has f :=
  hf.imp fun i => h.edges i f

theorem place? {n : NodeId} {P : Place} (hn : s.place? n = some P) : t.place? n = some P := by
  obtain ⟨p, hp, hP⟩ := Option.bind_eq_some_iff.1 hn
  exact Option.bind_eq_some_iff.2 ⟨p, h.nodes n p hp, h.elements.place? hP⟩

theorem calls_mono {c c' : Situation} {site : CallSiteId} {m : MethodId}
    (hc : s.Calls c site c' m) : t.Calls c site c' m := by
  obtain ⟨contextSite, callee, hs, hm, hp⟩ := hc
  exact ⟨contextSite, callee, h.elements.site? hs, h.elements.method? hm, h.pending hp⟩

/-- Growth only adds to what a state grants. -/
theorem reading : s.reading.Le t.reading where
  points P v hv := by
    obtain ⟨n, o, hn, ho, mem⟩ := points_iff.1 hv
    exact points_iff.2 ⟨n, o, h.place? hn, h.elements.value? ho, h.objects n o mem⟩
  carries P Q k := by
    rintro ⟨n, m, hn, hm, hf⟩
    exact ⟨n, m, h.place? hn, h.place? hm, h.has hf⟩
  calls via c site c' m := by
    rintro ⟨hv, hc⟩
    refine ⟨?_, h.calls_mono hc⟩
    rw [h.program]
    exact hv

end Grows

/-! ### Objects that have arrived -/

/-- An object has passed a flow of a kind into `m`, or it is known not to pass it. -/
def Carried (s : Solver) (k : FlowKind) (m : NodeId) (o : ContextObjectId) : Prop :=
  (∀ type, k = .cast type → ∃ t, s.elements.objectType? o = some t) ∧
    (s.passes k o = true → o ∈ s.points.all m)

theorem Grows.objectType? {s t : Solver} (h : s.Grows t) {o : ContextObjectId} {type : TypeId}
    (ho : s.elements.objectType? o = some type) : t.elements.objectType? o = some type := by
  obtain ⟨a, ha, rfl⟩ := Option.map_eq_some_iff.1 ho
  obtain ⟨pair, hp, ho⟩ := Option.bind_eq_some_iff.1 ha
  refine Option.map_eq_some_iff.2 ⟨a, Option.bind_eq_some_iff.2 ⟨pair, ?_, ?_⟩, rfl⟩
  · exact h.elements.objects o pair hp
  · exact h.elements.heap _ a ho

theorem Grows.carried {s t : Solver} (h : s.Grows t) {k : FlowKind} {m : NodeId}
    {o : ContextObjectId} (hc : s.Carried k m o) : t.Carried k m o := by
  refine ⟨fun type hk => ?_, fun pass => h.objects m o (hc.2 ?_)⟩
  · obtain ⟨t', ht⟩ := hc.1 type hk
    exact ⟨t', h.objectType? ht⟩
  · cases k with
    | cast type =>
      obtain ⟨t', ht⟩ := hc.1 type rfl
      rw [passes, h.objectType? ht, h.program] at pass
      rw [passes, ht]
      exact pass
    | _ => rfl

/-- Nodes with objects to pass on are on the work list, and no object is passed on twice. -/
structure Scheduled (s : Solver) : Prop where
  filed : s.flows.Filed
  apart : ∀ n o, o ∈ s.points.pendingOf n → o ∉ s.points.propagatedOf n
  waiting : ∀ n o, o ∈ s.points.pendingOf n → n ∈ s.worklist.toList

/-- How a state grows between two pieces of work: no object is passed on, no call is recorded, and
whatever a source has passed on before has arrived at the end of a new flow. -/
structure Extends (s t : Solver) : Prop extends s.Grows t where
  propagated : ∀ n, t.points.propagatedOf n = s.points.propagatedOf n
  sameCalls : t.calls = s.calls
  queued : s.callQueue.toList <+: t.callQueue.toList
  announced : s.events.toList <+: t.events.toList
  fresh : ∀ f, t.flows.Has f →
    s.flows.Has f ∨ ∀ o ∈ t.points.propagatedOf f.source, t.Carried f.kind f.target o
  scheduled : s.Scheduled → t.Scheduled

namespace Extends

theorem refl (s : Solver) : s.Extends s where
  toGrows := .refl s
  propagated _ := rfl
  sameCalls := rfl
  queued := List.prefix_rfl
  announced := List.prefix_rfl
  fresh _ := .inl
  scheduled := id

theorem trans {s t u : Solver} (st : s.Extends t) (tu : t.Extends u) : s.Extends u where
  toGrows := st.toGrows.trans tu.toGrows
  propagated n := (tu.propagated n).trans (st.propagated n)
  sameCalls := tu.sameCalls.trans st.sameCalls
  queued := st.queued.trans tu.queued
  announced := st.announced.trans tu.announced
  fresh f hf := by
    rcases tu.fresh f hf with hf | caught
    · refine (st.fresh f hf).imp_right fun caught o ho => tu.carried (caught o ?_)
      rwa [← tu.propagated]
    · exact .inr caught
  scheduled h := tu.scheduled (st.scheduled h)

theorem heralds {s t : Solver} (h : s.Extends t) {c : Situation} {site : CallSiteId} {v : Value}
    (hv : s.Heralds c site v) : t.Heralds c site v := by
  obtain ⟨context, o, hc, ho, mem⟩ := hv
  exact ⟨context, o, h.elements.situation? hc, h.elements.value? ho, h.announced.subset mem⟩

end Extends

/-! ### Single changes -/

section Changes

variable {s : Solver}

theorem extends_elements {e : Elements} (h : s.elements.Within e) :
    s.Extends { s with elements := e } :=
  { Extends.refl s with
    elements := h
    fresh := fun _ => .inl
    scheduled := fun h => ⟨h.filed, h.apart, h.waiting⟩
    calls := fun _ => .of_queue }

theorem extends_internNode {p : Pointer} : s.Extends (s.internNode p).2 :=
  { Extends.refl s with
    nodes := Table.within_intern
    fresh := fun _ => .inl
    scheduled := fun h => ⟨h.filed, h.apart, h.waiting⟩
    calls := fun _ => .of_queue }

/-- The node that a change schedules when its set has grown. -/
theorem mem_worklist_scheduleIf {grew : Bool} {n m : NodeId} :
    m ∈ (s.scheduleIf grew n).worklist.toList ↔ m ∈ s.worklist.toList ∨ grew = true ∧ m = n := by
  cases grew <;> simp [scheduleIf]

theorem scheduleIf_eq {grew : Bool} {n : NodeId} :
    s.scheduleIf grew n = { s with worklist := (s.scheduleIf grew n).worklist } := by
  cases grew <;> rfl

/-- A change of the objects of one node that schedules the node when its set has grown. -/
theorem extends_points {points : PendingStore NodeId ContextObjectId} {grew : Bool} {n : NodeId}
    (propagated : ∀ m, points.propagatedOf m = s.points.propagatedOf m)
    (pending : ∀ m o, o ∈ points.pendingOf m →
      o ∈ s.points.pendingOf m ∨ m = n ∧ o ∉ s.points.propagatedOf m ∧
        (grew = true ∨ ∃ o', o' ∈ s.points.pendingOf m))
    (kept : ∀ m o, o ∈ s.points.all m → o ∈ points.all m) :
    s.Extends ({ s with points }.scheduleIf grew n) := by
  rw [scheduleIf_eq]
  refine { Extends.refl s with
    objects := kept
    propagated := propagated
    fresh := fun _ => .inl
    calls := fun _ => .of_queue
    scheduled := fun h => ⟨h.filed, fun m o ho => ?_, fun m o ho => ?_⟩ }
  · change o ∉ points.propagatedOf m
    rw [propagated]
    exact (pending m o ho).elim (h.apart m o) fun h => h.2.1
  · refine mem_worklist_scheduleIf.2 ?_
    rcases pending m o ho with old | ⟨rfl, -, grew | ⟨o', old⟩⟩
    · exact .inl (h.waiting m o old)
    · exact .inr ⟨grew, rfl⟩
    · exact .inl (h.waiting m o' old)

theorem points_scheduleIf {grew : Bool} {n : NodeId} : (s.scheduleIf grew n).points = s.points := by
  cases grew <;> rfl

theorem addToNode_eq {n : NodeId} {o : ContextObjectId} :
    s.addToNode n o =
      { s with points := (s.points.add n o).2 }.scheduleIf (s.points.add n o).1 n := rfl

theorem uniteInto_eq {n : NodeId} {objects : Objects} :
    s.uniteInto n objects =
      { s with points := (s.points.union n objects).2 }.scheduleIf (s.points.union n objects).1 n :=
  rfl

theorem extends_addToNode {n : NodeId} {o : ContextObjectId} : s.Extends (s.addToNode n o) := by
  rw [addToNode_eq]
  refine extends_points (fun m => PendingStore.propagatedOf_add) (fun m o' ho => ?_)
    fun m o' ho => PendingStore.mem_all_add.2 (.inl ho)
  refine (PendingStore.mem_pendingOf_add.1 ho).imp_right ?_
  rintro ⟨rfl, rfl, fresh⟩
  refine ⟨rfl, fresh, ?_⟩
  rw [PendingStore.add_fst, PendingStore.mem_all]
  by_cases old : o' ∈ s.points.pendingOf m
  · exact .inr ⟨o', old⟩
  · exact .inl (not_or.2 ⟨old, fresh⟩)

theorem mem_addToNode {n m : NodeId} {o o' : ContextObjectId} :
    o' ∈ (s.addToNode n o).points.all m ↔ o' ∈ s.points.all m ∨ m = n ∧ o' = o := by
  simp only [addToNode_eq, points_scheduleIf]
  exact PendingStore.mem_all_add

theorem extends_uniteInto {n : NodeId} {objects : Objects} : s.Extends (s.uniteInto n objects) := by
  rw [uniteInto_eq]
  refine extends_points (fun m => PendingStore.propagatedOf_union) (fun m o ho => ?_)
    fun m o ho => PendingStore.mem_all_union.2 (.inl ho)
  refine (PendingStore.mem_pendingOf_union.1 ho).imp_right ?_
  rintro ⟨rfl, mem, fresh⟩
  refine ⟨rfl, fresh, ?_⟩
  rw [PendingStore.union_fst]
  by_cases old : o ∈ s.points.pendingOf m
  · exact .inr ⟨o, old⟩
  · exact .inl ⟨o, mem, fun h => (PendingStore.mem_all.1 h).elim old fresh⟩

theorem mem_uniteInto {n m : NodeId} {objects : Objects} {o : ContextObjectId} :
    o ∈ (s.uniteInto n objects).points.all m ↔ o ∈ s.points.all m ∨ m = n ∧ o ∈ objects := by
  simp only [uniteInto_eq, points_scheduleIf]
  exact PendingStore.mem_all_union

theorem extends_queueCall {e : CallEdge} : s.Extends (s.queueCall e) :=
  { Extends.refl s with
    queued := by
      change _ <+: (s.callQueue.push e).toList
      rw [Queue.toList_push]
      exact List.prefix_append ..
    fresh := fun _ => .inl
    scheduled := fun h => ⟨h.filed, h.apart, h.waiting⟩
    calls := fun e' he => .of_queue (Queue.mem_push.2 (.inl he)) }

theorem extends_announce {e : Event} : s.Extends (s.announce e) :=
  { Extends.refl s with
    announced := by
      change _ <+: (s.events.push e).toList
      rw [Queue.toList_push]
      exact List.prefix_append ..
    fresh := fun _ => .inl
    scheduled := fun h => ⟨h.filed, h.apart, h.waiting⟩
    calls := fun _ => .of_queue }

theorem extends_warn {text : String} : s.Extends (s.warn text) :=
  { Extends.refl s with
    fresh := fun _ => .inl
    scheduled := fun h => ⟨h.filed, h.apart, h.waiting⟩
    calls := fun _ => .of_queue }

end Changes

end Solver
end PointsTo
