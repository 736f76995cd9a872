import Mathlib.Data.List.Nodup
import PointsTo.Proofs.Entrances

/-!
The news that the solver announces. Written down in the order in which they are announced, they tell what
has become known: the methods, the methods in their contexts and the calls, each once, and the objects
that variables have passed on, each in one piece.
-/
namespace PointsTo

open Facts

/-! ### Tables in the order of their entries -/

namespace Table

variable {ε κ : Type} [Coded κ] {kind : Entity} {key : ε → κ} {t : Table kind key} {e : ε}

/-- A new entry comes last. -/
theorem toList_add :
    (t.add e).2.toList = t.toList ++ if (t.add e).1.isSome then [e] else [] := by
  unfold add
  split
  · exact (List.append_nil _).symm
  · simp [toList, push]

/-- No two entries have the same key. -/
theorem nodup_keys (t : Table kind key) : (t.toList.map key).Nodup := by
  rw [List.nodup_iff_getElem?_ne_getElem?]
  intro i j ij hj same
  rw [List.length_map] at hj
  have find (n : Nat) (hn : n < t.toList.length) :
      t.positions[key t.toList[n]]? = some n := by
    rw [t.positions_iff]
    simp [toList] at hn ⊢
    simp [hn]
  rw [List.getElem?_map, List.getElem?_map, List.getElem?_eq_getElem hj,
    List.getElem?_eq_getElem (Nat.lt_trans ij hj)] at same
  have keys : key t.toList[i] = key t.toList[j] := Option.some.inj same
  have := (find i (Nat.lt_trans ij hj)).symm.trans (keys ▸ find j hj)
  exact Nat.ne_of_lt ij (Option.some.inj this)

end Table

namespace CallGraph

variable {g : CallGraph} {caller m : ContextMethodId} {edge : CallEdge}

theorem nodup_reached (g : CallGraph) : g.reached.toList.Nodup := by
  simpa using g.reached.nodup_keys

/-- There is at most one call between two ends. -/
theorem nodup_edges (g : CallGraph) : g.edges.Nodup := by
  refine List.Nodup.of_map (fun e => (e.site, e.callee)) ?_
  rw [edges, List.map_map]
  exact Table.nodup_keys g.calls

theorem mem_reached : m ∈ g.reached.toList ↔ g.Reaches m := Table.mem_toList_iff

/-- A method that has just been reached comes last. -/
theorem reached_reach : (g.reach m).2.reached.toList =
    g.reached.toList ++ if (g.reach m).1 then [m] else [] := by
  unfold reach
  rw [← Table.toList_add]

theorem reach_of_reaches (known : g.Reaches m) : (g.reach m).2 = g := by
  obtain ⟨-, eq⟩ | ⟨new, -⟩ := g.reach_cases m
  · rw [eq]
  · exact absurd known new

theorem add_of_fresh (fresh : (g.add caller edge).1 = true) :
    ∃ new, (g.add caller edge).2 =
      (((g.record ⟨caller, edge⟩ new).reach caller).2.reach edge.callee).2 := by
  unfold add at fresh ⊢
  dsimp only at fresh ⊢
  split at fresh
  next => cases fresh
  next new => exact ⟨new, rfl⟩

/-- The caller of a call has been reached before; a callee that has not comes last. -/
theorem reached_add (fresh : (g.add caller edge).1 = true) (reached : g.Reaches caller) :
    (g.add caller edge).2.reached.toList =
      g.reached.toList ++ if g.isReached edge.callee then [] else [edge.callee] := by
  obtain ⟨new, eq⟩ := add_of_fresh fresh
  have known : (g.record ⟨caller, edge⟩ new).Reaches caller := reached
  rw [eq, reach_of_reaches known, reached_reach]
  congr 1
  obtain ⟨known, eq⟩ | ⟨new', flag, -⟩ := (g.record ⟨caller, edge⟩ new).reach_cases edge.callee
  · have known : g.Reaches edge.callee := known
    rw [eq, if_pos (isReached_iff.2 known)]
    rfl
  · have new : ¬ g.Reaches edge.callee := new'
    rw [flag, if_neg fun known => new (isReached_iff.1 known)]
    rfl

theorem edges_add (fresh : (g.add caller edge).1 = true) :
    (g.add caller edge).2.edges = g.edges ++ [edge] := by
  obtain ⟨new, eq⟩ := add_of_fresh fresh
  rw [eq, edges, calls_reach, calls_reach]
  simp [edges, record, Table.toList, Table.push]

end CallGraph

/-! ### Events -/

namespace Event

def method? : Event → Option MethodId
  | .method m => some m
  | .contextMethod _ | .call _ | .unresolved .. | .objects .. => none

def contextMethod? : Event → Option ContextMethodId
  | .contextMethod cm => some cm
  | .method _ | .call _ | .unresolved .. | .objects .. => none

def call? : Event → Option CallEdge
  | .call edge => some edge
  | .method _ | .contextMethod _ | .unresolved .. | .objects .. => none

/-- The objects by which a variable has grown. -/
def delta? (x : ContextVarId) : Event → Option Objects
  | .objects y delta => if y = x then some delta else none
  | .method _ | .contextMethod _ | .call _ | .unresolved .. => none

variable {l : List Event}

theorem mem_method? {m : MethodId} : m ∈ l.filterMap method? ↔ .method m ∈ l := by
  rw [List.mem_filterMap]
  constructor
  · rintro ⟨⟨⟩, mem, ⟨⟩⟩
    exact mem
  · exact fun mem => ⟨_, mem, rfl⟩

theorem mem_contextMethod? {cm : ContextMethodId} :
    cm ∈ l.filterMap contextMethod? ↔ .contextMethod cm ∈ l := by
  rw [List.mem_filterMap]
  constructor
  · rintro ⟨⟨⟩, mem, ⟨⟩⟩
    exact mem
  · exact fun mem => ⟨_, mem, rfl⟩

theorem mem_call? {edge : CallEdge} : edge ∈ l.filterMap call? ↔ .call edge ∈ l := by
  rw [List.mem_filterMap]
  constructor
  · rintro ⟨⟨⟩, mem, ⟨⟩⟩
    exact mem
  · exact fun mem => ⟨_, mem, rfl⟩

theorem mem_delta? {x : ContextVarId} {delta : Objects} :
    delta ∈ l.filterMap (delta? x) ↔ .objects x delta ∈ l := by
  rw [List.mem_filterMap]
  constructor
  · rintro ⟨e, mem, he⟩
    cases e with
    | objects y d =>
      obtain ⟨rfl, same⟩ := Option.ite_none_right_eq_some.1 he
      cases same
      exact mem
    | _ => cases he
  · exact fun mem => ⟨_, mem, if_pos rfl⟩

end Event

namespace Solver

variable {s t u : Solver} {l news : List Event}

/-! ### Chronicles -/

/-- A variable has passed an object on. -/
def Passed (s : Solver) (x : ContextVarId) (o : ContextObjectId) : Prop :=
  ∃ n, s.flows.pointer? n = some (.var x) ∧ o ∈ s.points.propagatedOf n

/-- A method in its context contains a call site in that context. -/
def Encloses (s : Solver) (caller : ContextMethodId) (cs : ContextSiteId) : Prop :=
  ∃ site decl, s.elements.sites.get? cs = some site ∧
    s.program.callSites[site.entity]? = some decl ∧
    s.elements.methods.get? caller = some ⟨site.context, decl.container⟩

instance {caller : ContextMethodId} {cs : ContextSiteId} : Decidable (s.Encloses caller cs) :=
  decidable_of_iff (∃ site ∈ s.elements.sites.get? cs,
    ∃ decl ∈ s.program.callSites[site.entity]?,
      s.elements.methods.get? caller = some ⟨site.context, decl.container⟩) (by
    simp only [Encloses, Option.mem_def, exists_and_left])

theorem Encloses.mono {caller : ContextMethodId} {cs : ContextSiteId} (h : s.Encloses caller cs)
    (elements : s.elements.Within t.elements) (program : t.program = s.program) :
    t.Encloses caller cs := by
  obtain ⟨site, decl, hsite, hdecl, hcaller⟩ := h
  exact ⟨site, decl, elements.sites cs site hsite, program ▸ hdecl,
    elements.methods caller _ hcaller⟩

theorem encloses_internMethod {cs : ContextSiteId} {site : InContext .callSite} {decl : CallSite}
    (hsite : s.elements.sites.get? cs = some site)
    (hdecl : s.program.callSites[site.entity]? = some decl) :
    Encloses (s.internMethod site.context decl.container).2
      (s.internMethod site.context decl.container).1 cs :=
  ⟨site, decl, hsite, hdecl, CopyTable.get?_intern⟩

/-- The methods are told in the order in which they were reached in their contexts, and each method by
itself before it is told in any of them. -/
structure Musters (s : Solver) (l : List Event) : Prop where
  once : (l.filterMap Event.method?).Nodup
  methods : ∀ m, .method m ∈ l ↔ m ∈ s.reachedMethods
  introduces : s.Introduces (fun _ => False) l
  contextMethods : l.filterMap Event.contextMethod? = s.calls.reached.toList

/-- The calls are told in the order in which they were found, each after its caller and its callee. -/
structure Connects (s : Solver) (l : List Event) : Prop where
  calls : l.filterMap Event.call? = s.calls.edges
  ends : ∀ before after edge, l = before ++ .call edge :: after → ∃ caller,
    s.calls.Records ⟨caller, edge⟩ ∧ s.Encloses caller edge.site ∧
      .contextMethod caller ∈ before ∧ .contextMethod edge.callee ∈ before

/-- The objects that a variable has passed on are told in pieces that have no object in common. -/
structure Hands (s : Solver) (l : List Event) : Prop where
  nonempty : ∀ x delta, .objects x delta ∈ l → ∃ o, o ∈ delta
  disjoint : ∀ x, (l.filterMap (Event.delta? x)).Pairwise fun d d' => ∀ o ∈ d, o ∉ d'
  passed : ∀ x o, (∃ delta, .objects x delta ∈ l ∧ o ∈ delta) ↔ s.Passed x o
  nodes : ∀ n o, o ∈ s.points.propagatedOf n → ∃ p, s.flows.pointer? n = some p

/-- A list of events tells what has become known, and nothing else. -/
structure Chronicles (s : Solver) (l : List Event) : Prop extends
  Musters s l, Connects s l, Hands s l

/-- A state grows between two pieces of work by nothing that plugins are told about. -/
structure Untold (s t : Solver) : Prop extends Extends s t where
  reachedMethods : t.reachedMethods = s.reachedMethods
  tidings : t.tidings = s.tidings

theorem Asks.untold {questions : List Event} (h : Asks questions s t) : s.Untold t :=
  ⟨h.toExtends, h.reachedMethods, h.tidings⟩

theorem Entered.untold (h : Entered s t) : s.Untold t :=
  ⟨h.extends, h.silent.reachedMethods, by rw [tidings, h.silent.events]; rfl⟩

theorem methods_entering {cm : ContextMethodId} {m : MethodId} :
    (s.entering cm m).filterMap Event.method? = if m ∈ s.reachedMethods then [] else [m] := by
  unfold entering
  split <;> rfl

theorem contextMethods_entering {cm : ContextMethodId} {m : MethodId} :
    (s.entering cm m).filterMap Event.contextMethod? = [cm] := by
  unfold entering
  split <;> rfl

namespace Musters

theorem mem_contextMethod (h : s.Musters l) {cm : ContextMethodId} :
    .contextMethod cm ∈ l ↔ s.calls.Reaches cm := by
  rw [← Event.mem_contextMethod?, h.contextMethods, CallGraph.mem_reached]

/-- Other events may be told. -/
theorem append (h : s.Musters l) (elements : s.elements.Within t.elements)
    (methods : t.reachedMethods = s.reachedMethods)
    (reached : t.calls.reached.toList = s.calls.reached.toList)
    (others : ∀ e ∈ news, e.isEntrance = false) : t.Musters (l ++ news) := by
  have noMethod : news.filterMap Event.method? = [] := by
    rw [List.filterMap_eq_nil_iff]
    intro e he
    cases e with
    | method => cases others _ he
    | _ => rfl
  have noContextMethod : news.filterMap Event.contextMethod? = [] := by
    rw [List.filterMap_eq_nil_iff]
    intro e he
    cases e with
    | contextMethod => cases others _ he
    | _ => rfl
  refine ⟨?_, fun m => ?_, fun before after cm split => ?_, ?_⟩
  · rw [List.filterMap_append, noMethod, List.append_nil]
    exact h.once
  · rw [← Event.mem_method?, List.filterMap_append, noMethod, List.append_nil, Event.mem_method?,
      methods]
    exact h.methods m
  · obtain ⟨rest, told⟩ | ⟨rest, -, told⟩ := split_append split
    · obtain ⟨pair, hpair, known⟩ := h.introduces before rest cm told
      exact ⟨pair, elements.methods cm pair hpair, known⟩
    · have mem : .contextMethod cm ∈ news := by simp [told]
      cases others _ mem
  · rw [List.filterMap_append, noContextMethod, List.append_nil, reached]
    exact h.contextMethods

/-- A method that has just been reached in a context is told. -/
theorem enter (h : s.Musters l) (elements : s.elements.Within t.elements) {cm : ContextMethodId}
    {pair : InContext .method} (hpair : s.elements.methods.get? cm = some pair)
    (enrols : Enrols cm pair.entity s t)
    (reached : t.calls.reached.toList = s.calls.reached.toList ++ [cm]) :
    t.Musters (l ++ s.entering cm pair.entity) := by
  refine ⟨?_, fun m => ?_, ?_, ?_⟩
  · rw [List.filterMap_append, methods_entering]
    split
    · rw [List.append_nil]
      exact h.once
    next new =>
      refine List.nodup_append.2 ⟨h.once, List.nodup_singleton _, fun m hm m' hm' same => new ?_⟩
      rw [← List.mem_singleton.1 hm', ← same]
      exact (h.methods m).1 (Event.mem_method?.1 hm)
  · rw [List.mem_append, enrols.reachedMethods, h.methods]
    unfold entering
    split
    next old =>
      simp only [List.nil_append, List.mem_singleton, reduceCtorEq, or_false]
      exact ⟨.inl, fun h => h.elim id (· ▸ old)⟩
    next => simp
  · refine (h.introduces.mono elements fun _ => id).append ?_
    refine (Introduces.entered (elements.methods cm pair hpair)).mono (.refl _) fun m hm => ?_
    exact .inr ((h.methods m).2 hm)
  · rw [List.filterMap_append, h.contextMethods, reached, contextMethods_entering]

end Musters

namespace Connects

/-- Other events may be told. -/
theorem append (h : s.Connects l) (elements : s.elements.Within t.elements)
    (program : t.program = s.program) (calls : t.calls.calls = s.calls.calls)
    (others : news.filterMap Event.call? = []) : t.Connects (l ++ news) := by
  refine ⟨?_, fun before after edge split => ?_⟩
  · rw [List.filterMap_append, others, List.append_nil, h.calls, CallGraph.edges, CallGraph.edges,
      calls]
  · obtain ⟨rest, told⟩ | ⟨rest, -, told⟩ := split_append split
    · obtain ⟨caller, recorded, encloses, known⟩ := h.ends before rest edge told
      refine ⟨caller, ?_, encloses.mono elements program, known⟩
      rwa [CallGraph.Records, calls]
    · have mem : edge ∈ news.filterMap Event.call? := Event.mem_call?.2 (by simp [told])
      rw [others] at mem
      cases mem

/-- A call that has just been recorded is told. -/
theorem record (h : s.Connects l) (elements : s.elements.Within t.elements)
    (program : t.program = s.program) {caller : ContextMethodId} {edge : CallEdge}
    (edges : t.calls.edges = s.calls.edges ++ [edge])
    (records : ∀ call, s.calls.Records call ∨ call = ⟨caller, edge⟩ → t.calls.Records call)
    (encloses : s.Encloses caller edge.site) (hcaller : .contextMethod caller ∈ l)
    (hcallee : .contextMethod edge.callee ∈ l) : t.Connects (l ++ [.call edge]) := by
  refine ⟨?_, fun before after edge' split => ?_⟩
  · rw [List.filterMap_append, h.calls, edges]
    rfl
  · obtain ⟨rest, told⟩ | ⟨rest, rfl, told⟩ := split_append split
    · obtain ⟨caller', recorded, encloses', known⟩ := h.ends before rest edge' told
      exact ⟨caller', records _ (.inl recorded), encloses'.mono elements program, known⟩
    · obtain ⟨rfl, tail⟩ | ⟨-, tail⟩ := List.singleton_eq_append_iff.1 told
      · cases tail
        rw [List.append_nil]
        exact ⟨caller, records _ (.inr rfl), encloses.mono elements program, hcaller, hcallee⟩
      · cases tail

end Connects

namespace Hands

/-- Calls and what is announced have no part in it. -/
theorem of_same (h : s.Hands l) (flows : t.flows = s.flows) (points : t.points = s.points) :
    t.Hands l where
  nonempty := h.nonempty
  disjoint := h.disjoint
  passed x o := by
    rw [Passed, flows, points]
    exact h.passed x o
  nodes n o ho := by
    rw [points] at ho
    rw [flows]
    exact h.nodes n o ho

theorem passed_iff (h : s.Hands l) (st : s.Extends t) {x : ContextVarId} {o : ContextObjectId} :
    t.Passed x o ↔ s.Passed x o := by
  constructor
  · rintro ⟨n, hn, ho⟩
    rw [st.propagated] at ho
    obtain ⟨p, hp⟩ := h.nodes n o ho
    cases (st.nodes n p hp).symm.trans hn
    exact ⟨n, hp, ho⟩
  · rintro ⟨n, hn, ho⟩
    exact ⟨n, st.nodes n _ hn, by rwa [st.propagated]⟩

/-- What the variable of a node has passed on when the node has handed out its objects. -/
theorem passed_flush (h : s.Hands l) {n : NodeId} {p : Pointer}
    (st : Extends { s with points := (s.points.flush n).2 } t)
    (node : t.flows.pointer? n = some p) {x : ContextVarId} {o : ContextObjectId} :
    t.Passed x o ↔ s.Passed x o ∨ p = .var x ∧ o ∈ s.points.pendingOf n := by
  constructor
  · rintro ⟨m, hm, ho⟩
    rw [st.propagated, PendingStore.mem_propagatedOf_flush] at ho
    obtain old | ⟨rfl, new⟩ := ho
    · obtain ⟨q, hq⟩ := h.nodes m o old
      cases (st.nodes m q hq).symm.trans hm
      exact .inl ⟨m, hq, old⟩
    · exact .inr ⟨Option.some.inj (node.symm.trans hm), new⟩
  · rintro (⟨m, hm, ho⟩ | ⟨rfl, new⟩)
    · refine ⟨m, st.nodes m _ hm, ?_⟩
      rw [st.propagated, PendingStore.mem_propagatedOf_flush]
      exact .inl ho
    · refine ⟨n, node, ?_⟩
      rw [st.propagated, PendingStore.mem_propagatedOf_flush]
      exact .inr ⟨rfl, new⟩

theorem nodes_flush (h : s.Hands l) {n : NodeId} {p : Pointer}
    (st : Extends { s with points := (s.points.flush n).2 } t)
    (node : t.flows.pointer? n = some p) (m : NodeId) (o : ContextObjectId)
    (ho : o ∈ t.points.propagatedOf m) : ∃ q, t.flows.pointer? m = some q := by
  rw [st.propagated, PendingStore.mem_propagatedOf_flush] at ho
  obtain old | ⟨rfl, -⟩ := ho
  · exact (h.nodes m o old).imp (st.nodes m)
  · exact ⟨p, node⟩

/-- Other events may be told. -/
theorem append (h : s.Hands l) (passed : ∀ x o, t.Passed x o ↔ s.Passed x o)
    (nodes : ∀ n o, o ∈ t.points.propagatedOf n → ∃ p, t.flows.pointer? n = some p)
    (others : ∀ x delta, .objects x delta ∉ news) : t.Hands (l ++ news) := by
  have mem {x : ContextVarId} {delta : Objects} :
      .objects x delta ∈ l ++ news ↔ .objects x delta ∈ l := by
    rw [List.mem_append, or_iff_left (others x delta)]
  have none (x : ContextVarId) : news.filterMap (Event.delta? x) = [] := by
    refine List.eq_nil_iff_forall_not_mem.2 fun delta told => ?_
    exact others x delta (Event.mem_delta?.1 told)
  refine ⟨fun x delta told => h.nonempty x delta (mem.1 told), fun x => ?_, fun x o => ?_, nodes⟩
  · rw [List.filterMap_append, none, List.append_nil]
    exact h.disjoint x
  · simp only [mem]
    rw [passed, h.passed]

/-- The objects that a variable hands out are told. -/
theorem hand (h : s.Hands l)
    (apart : ∀ n o, o ∈ s.points.pendingOf n → o ∉ s.points.propagatedOf n)
    {n : NodeId} {x : ContextVarId} {delta : Objects}
    (handed : (s.points.flush n).1 = some delta)
    (st : Extends { s with points := (s.points.flush n).2 } t)
    (node : t.flows.pointer? n = some (.var x)) : t.Hands (l ++ [.objects x delta]) := by
  have mem {y : ContextVarId} {d : Objects} : .objects y d ∈ l ++ [.objects x delta] ↔
      .objects y d ∈ l ∨ y = x ∧ d = delta := by simp
  have pending (o : ContextObjectId) : o ∈ delta ↔ o ∈ s.points.pendingOf n :=
    PendingStore.mem_of_flush handed
  -- what the variable has passed on before it has not kept
  have unseen (o : ContextObjectId) (ho : o ∈ delta) : ¬ s.Passed x o := by
    rintro ⟨m, hm, old⟩
    have same : m = n := Table.id_eq_of_key_eq (st.nodes m _ hm) node rfl
    exact apart n o ((pending o).1 ho) (same ▸ old)
  refine ⟨fun y d told => ?_, fun y => ?_, fun y o => ?_, h.nodes_flush st node⟩
  · obtain old | ⟨-, rfl⟩ := mem.1 told
    · exact h.nonempty y d old
    · exact PendingStore.exists_mem_of_flush handed
  · have one : ([Event.objects x delta].filterMap (Event.delta? y)).Sublist [delta] := by
      by_cases same : x = y <;> simp [Event.delta?, same]
    rw [List.filterMap_append, List.pairwise_append]
    refine ⟨h.disjoint y, .sublist one (List.pairwise_singleton _ _), fun d hd d' hd' o ho ho' => ?_⟩
    · obtain same : x = y ∧ d' = delta := by
        have told := Event.mem_delta?.1 hd'
        simpa [eq_comm] using told
      obtain ⟨rfl, rfl⟩ := same
      exact unseen o ho' ((h.passed x o).1 ⟨d, Event.mem_delta?.1 hd, ho⟩)
  · rw [h.passed_flush st node, ← h.passed y o]
    simp only [mem, Pointer.var.injEq, ← pending]
    constructor
    · rintro ⟨d, old | ⟨rfl, rfl⟩, ho⟩
      · exact .inl ⟨d, old, ho⟩
      · exact .inr ⟨rfl, ho⟩
    · rintro (⟨d, old, ho⟩ | ⟨rfl, ho⟩)
      · exact ⟨d, .inl old, ho⟩
      · exact ⟨delta, .inr ⟨rfl, rfl⟩, ho⟩

end Hands

theorem Chronicles.untold (h : s.Chronicles l) (st : s.Untold t) : t.Chronicles l := by
  have musters : t.Musters (l ++ []) :=
    h.toMusters.append st.elements st.reachedMethods (by rw [st.sameCalls]) nofun
  have connects : t.Connects (l ++ []) :=
    h.toConnects.append st.elements st.program (by rw [st.sameCalls]) rfl
  have hands : t.Hands (l ++ []) := by
    refine h.toHands.append (fun x o => h.toHands.passed_iff st.toExtends) (fun n o ho => ?_) nofun
    rw [st.propagated] at ho
    exact (h.nodes n o ho).imp (st.nodes n)
  rw [List.append_nil] at musters connects hands
  exact ⟨musters, connects, hands⟩

end Solver
end PointsTo
