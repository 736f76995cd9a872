import PointsTo.Proofs.Runs
import PointsTo.Proofs.Scope

/-!
The result of a run without plugins satisfies every constraint of the program.
-/
namespace PointsTo

open Facts

namespace Solver

variable {s : Solver}

/-- What a state says, in terms of meanings: the reached methods, the objects of each place, and
the recorded calls. -/
def facts (s : Solver) : Solution where
  reached c m := ∃ cm, s.calls.Reaches cm ∧ s.elements.copy? s.elements.methods cm = some (c, m)
  points := s.Points
  calls via c site c' m := ∃ call, s.calls.Records call ∧
    s.elements.via? call.edge.kind = some via ∧
    s.elements.copy? s.elements.sites call.edge.site = some (c, site) ∧
    s.elements.copy? s.elements.methods call.edge.callee = some (c', m)

theorem mem_pointsTo_iff {p : Pointer} {o : ContextObjectId} :
    o ∈ s.pointsTo p ↔ ∃ n, s.flows.pointer? n = some p ∧ o ∈ s.points.all n := by
  rw [pointsTo]
  constructor
  · intro mem
    split at mem
    next n hn => exact ⟨n, FlowGraph.node?_eq_some_iff.1 hn, mem⟩
    next => exact absurd mem HybridSet.not_mem_empty
  · rintro ⟨n, hn, mem⟩
    rw [FlowGraph.node?_eq_some_iff.2 hn]
    exact mem

theorem mem_objectsIn_iff {c : ContextId} {v : VarId} {o : ContextObjectId} :
    o ∈ s.objectsIn c v ↔ ∃ x, s.elements.vars.find? c v = some x ∧ o ∈ s.pointsTo (.var x) := by
  unfold objectsIn
  cases s.elements.vars.find? c v with
  | none => simp
  | some x => simp [varObjects]

instance {c : Situation} {m : MethodId} : Decidable (s.facts.reached c m) :=
  decidable_of_iff (∃ cm ∈ s.calls.reached.toList,
      s.elements.copy? s.elements.methods cm = some (c, m)) <|
    exists_congr fun _ => and_congr_left fun _ => Table.mem_toList_iff

instance {P : Place} {v : Value} : Decidable (s.facts.points P v) :=
  decidable_of_iff (∃ p ∈ s.flows.nodes.toList, s.elements.place? p = some P ∧
      ∃ o ∈ (s.pointsTo p).toList, s.elements.value? o = some v) <| by
    simp only [HybridSet.mem_toList, Table.mem_toList_iff]
    constructor
    · rintro ⟨p, -, hp, o, mem, ho⟩
      exact ⟨p, o, hp, ho, mem⟩
    · rintro ⟨p, o, hp, ho, mem⟩
      exact ⟨p, (mem_pointsTo_iff.1 mem).imp fun _ => And.left, hp, o, mem, ho⟩

instance {via : Via} {c c' : Situation} {site : CallSiteId} {m : MethodId} :
    Decidable (s.facts.calls via c site c' m) :=
  decidable_of_iff (∃ call ∈ s.calls.calls.toList, s.elements.via? call.edge.kind = some via ∧
      s.elements.copy? s.elements.sites call.edge.site = some (c, site) ∧
      s.elements.copy? s.elements.methods call.edge.callee = some (c', m)) <|
    exists_congr fun _ => and_congr_left fun _ => Table.mem_toList_iff

/-- Whatever a state knows has a meaning, so that its facts leave nothing out. -/
structure Legible (s : Solver) : Prop where
  objects : ∀ p o, o ∈ s.pointsTo p →
    ∃ P v, s.elements.place? p = some P ∧ s.elements.value? o = some v
  reached : ∀ cm, s.calls.Reaches cm → ∃ c m,
    s.elements.copy? s.elements.methods cm = some (c, m)
  calls : ∀ call, s.calls.Records call → ∃ via c site c' m,
    s.elements.via? call.edge.kind = some via ∧
    s.elements.copy? s.elements.sites call.edge.site = some (c, site) ∧
    s.elements.copy? s.elements.methods call.edge.callee = some (c', m)

theorem node_eq_of_place? {n m : NodeId} {P : Place} (hn : s.place? n = some P)
    (hm : s.place? m = some P) : n = m := by
  obtain ⟨p, hp, hP⟩ := Option.bind_eq_some_iff.1 hn
  obtain ⟨q, hq, hQ⟩ := Option.bind_eq_some_iff.1 hm
  cases Elements.eq_of_place? hP hQ
  exact Table.id_eq_of_key_eq hp hq rfl

end Solver

variable {F : Solution} {s : Solver}

theorem Sound.legible (hs : Sound F s) : s.Legible where
  objects p o mem := by
    obtain ⟨n, hn, mem⟩ := Solver.mem_pointsTo_iff.1 mem
    obtain ⟨P, v, hP, hv, -⟩ := hs.points n o mem
    rw [Solver.place?, hn] at hP
    exact ⟨P, v, hP, hv⟩
  reached cm hcm := by
    obtain ⟨c, m, hm, -⟩ := hs.reached cm hcm
    exact ⟨c, m, hm⟩
  calls call hc := by
    obtain ⟨via, c, site, c', m, hv, hs, hm, -⟩ := hs.recorded call hc
    exact ⟨via, c, site, c', m, hv, hs, hm⟩

/-- The facts of a sound state are among those that it is sound for. -/
theorem Sound.facts_le (h : Sound F s) : s.facts.Le F where
  reached := by
    rintro c m ⟨cm, reached, hcm⟩
    obtain ⟨c', m', hcm', fact⟩ := h.reached cm reached
    cases hcm.symm.trans hcm'
    exact fact
  points P v hv := by
    obtain ⟨n, o, hn, ho, mem⟩ := Solver.points_iff.1 hv
    obtain ⟨P', v', hn', ho', fact⟩ := h.points n o mem
    cases hn.symm.trans hn'
    cases ho.symm.trans ho'
    exact fact.1
  calls := by
    rintro via c site c' m ⟨call, hc, hv, hs, hm⟩
    obtain ⟨via', d, site', d', m', hv', hs', hm', fact⟩ := h.recorded call hc
    cases hv.symm.trans hv'
    cases hs.symm.trans hs'
    cases hm.symm.trans hm'
    exact fact.1

namespace Invariant

/-- In a quiet state every object has been passed on. -/
theorem propagated_of_quiet (hi : Invariant F s) (quiet : s.Quiet) {n : NodeId}
    {o : ContextObjectId} (ho : o ∈ s.points.all n) : o ∈ s.points.propagatedOf n := by
  refine (PendingStore.mem_all.1 ho).resolve_left fun pending => ?_
  have mem := hi.scheduled.waiting n o pending
  rw [quiet.2.2] at mem
  exact List.not_mem_nil mem

/-- In a quiet state the objects of the source of a flow are objects of its target. -/
theorem points_of_flows (hi : Invariant F s) (quiet : s.Quiet) {P Q : Place} {k : FlowKind}
    {v : Value} (flows : s.Flows P Q k) (hv : s.Points P v) (pass : s.program.Passes k v) :
    s.Points Q v := by
  obtain ⟨n, m, hn, hm, hf⟩ := flows
  obtain ⟨n', o, hn', ho, mem⟩ := Solver.points_iff.1 hv
  cases Solver.node_eq_of_place? hn hn'
  have arrived := (hi.arrived _ hf o (hi.propagated_of_quiet quiet mem)).2
    ((Solve.passes_iff ho).2 pass)
  exact Solver.points_iff.2 ⟨m, o, hm, ho, arrived⟩

/-- In a quiet state every call that was found is recorded. -/
theorem calls_of_quiet (hi : Invariant F s) (quiet : s.Quiet) {c c' : Situation} {site : CallSiteId}
    {m : MethodId} (found : s.Calls c site c' m) : ∃ via, s.facts.calls via c site c' m := by
  obtain ⟨contextSite, callee, hs, hm, ⟨e, he, -⟩ | ⟨call, hc, ends⟩⟩ := found
  · rw [quiet.2.1] at he
    cases he
  · cases ends
    obtain ⟨via, -, -, -, -, hv, -⟩ := hi.sound.recorded call hc
    exact ⟨via, call, hc, hv, hs, hm⟩

end Invariant

namespace Analysis

namespace Running

variable {p : Program} {sel : Selector} (h : Running F p sel s)
include h

/-- A call that no plugin contributes comes about the way its call site says. -/
theorem via_of_core {via : Via} {c c' : Situation} {site : CallSiteId} {m : MethodId}
    (call : s.facts.calls via c site c' m) (core : via.IsCore) {decl : CallSite}
    (hd : p.callSites[site]? = some decl) : decl.kind.via? = some via := by
  obtain rfl := h.program
  obtain ⟨call, hc, hv, hs, -⟩ := call
  obtain ⟨via', c₁, site₁, c₂, m₁, hv', hs', -, granted⟩ := h.sound.recorded call hc
  cases hv.symm.trans hv'
  cases hs.symm.trans hs'
  exact (granted.2 decl hd).2 core

variable (quiet : s.Quiet)
include quiet

/-- In a quiet state a flow carries what passes it. -/
theorem carries_of_flows {P Q : Place} {k : FlowKind} (flows : s.Flows P Q k) :
    (s.facts.reading p).carries P Q k := by
  obtain rfl := h.program
  exact fun v => h.points_of_flows quiet flows

/-- In a quiet state a call that no plugin contributes is linked. -/
theorem links_of_quiet {via : Via} {c c' : Situation} {site : CallSiteId} {m : MethodId}
    (call : s.facts.calls via c site c' m) (core : via.IsCore) :
    (s.facts.reading p).Link p via c site c' m := by
  obtain ⟨call, hc, hv, hs, hm⟩ := call
  have linked := h.linked call hc via c site c' m core hv hs hm
  rw [h.program] at linked
  exact linked.mono fun _ _ _ => h.carries_of_flows quiet

/-- In a quiet state without calls of plugins, all that the state grants is a fact. -/
theorem reading_le_facts (core : ∀ via c site c' m, F.calls via c site c' m → via.IsCore) :
    s.reading.Le (s.facts.reading p) where
  points _ _ := id
  carries _ _ _ := h.carries_of_flows quiet
  calls via c site c' m := by
    rintro ⟨⟨decl, hd, hk⟩, found⟩
    rw [h.program] at hd
    obtain ⟨via', call⟩ := h.calls_of_quiet quiet found
    have isCore := core _ _ _ _ _ (h.sound.facts_le.calls _ _ _ _ _ call)
    cases hk.symm.trans (h.via_of_core call isCore hd)
    exact call

/-- In a quiet state all constraints are satisfied, provided that plugins contribute no calls. -/
theorem closed (core : ∀ via c site c' m, F.calls via c site c' m → via.IsCore) :
    s.facts.Closed p sel := by
  have le := h.reading_le_facts quiet core
  have links := @h.links_of_quiet _ _ _ _ quiet
  obtain ⟨rfl, rfl⟩ := And.intro h.program h.selector
  exact {
    entries := fun m hm => by
      obtain ⟨cm, hcm, reached⟩ := h.entries m hm
      exact ⟨cm, reached, hcm⟩
    statements := by
      rintro c m ⟨cm, reached, hcm⟩
      exact le.body_mono (h.entered cm reached c m hcm)
    objects := by
      rintro c m d - hd stmt mem v base o ho
      obtain ⟨n, o', hn, ho', all⟩ := Solver.points_iff.1 ho
      exact le.object_mono (h.served n o' (h.propagated_of_quiet quiet all) c v o hn ho' stmt
        ⟨m, d, hd, mem⟩ base)
    callees := by
      rintro via c site c' m ⟨call, hc, -, -, hm⟩
      exact ⟨_, (h.ends call hc).2, hm⟩
    links := fun _ _ _ _ _ call isCore => links call isCore }

end Running

end Analysis

namespace Solution

/-- All facts that can come about without plugins. -/
def core : Solution where
  reached _ _ := True
  points _ _ := True
  calls via _ _ _ _ := via.IsCore

theorem isCore_of_via? {k : CallKind} {via : Via} (h : k.via? = some via) : via.IsCore := by
  cases k <;> cases h <;> trivial

/-- The constraints lead nowhere out of sets that have all facts, but for calls of plugins. -/
theorem supports_of_all {F : Solution} {p : Program} {sel : Selector}
    (reached : ∀ c m, F.reached c m) (points : ∀ P v, F.points P v)
    (calls : ∀ via c site c' m, via.IsCore → F.calls via c site c' m) : F.Supports p sel := by
  have live P : F.Live p P := by
    cases P with
    | var => exact fun _ _ => reached _ _
    | _ => trivial
  have points P v : (F.demands p).points P v := ⟨points P v, live P⟩
  have carries P Q k : (F.demands p).carries P Q k := ⟨live Q, fun v _ _ => (points Q v).1⟩
  have calls {site : CallSiteId} {decl : CallSite} {via : Via}
      (hd : p.callSites[site]? = some decl) (hk : decl.kind.via? = some via) c c' m :
      (F.demands p).calls via c site c' m := by
    refine ⟨calls _ _ _ _ _ (isCore_of_via? hk), fun decl' hd' => ⟨reached _ _, fun _ => ?_⟩⟩
    cases hd.symm.trans hd'
    exact hk
  refine ⟨fun _ _ => reached _ _, fun c m _ d _ i stmt _ => ?_, fun c v _ w _ _ _ stmt _ _ => ?_,
    fun _ _ _ _ _ _ => reached _ _, fun _ _ _ _ _ _ _ _ _ _ _ =>
      ⟨fun _ _ => carries _ _ _, fun _ _ _ _ => carries _ _ _, fun _ _ _ _ _ => carries _ _ _⟩⟩
  · cases stmt with
    | new => exact points _ _
    | assign | cast | loadStatic | storeStatic => exact carries _ _ _
    | invoke site =>
      intro decl hd
      unfold Reading.Site
      split
      next hk => exact fun _ _ => calls hd (by rw [hk]; rfl) _ _ _
      next hk => exact fun _ _ => calls hd (by rw [hk]; rfl) _ _ _
      next => trivial
      next => trivial
      next => exact fun _ _ _ _ _ => points _ _
    | _ => trivial
  · cases stmt with
    | loadField | storeField | loadArray | storeArray => exact carries _ _ _
    | invoke site =>
      exact fun decl hd callee _ => ⟨fun via hk => calls hd hk _ _ _, fun _ _ _ _ => points _ _⟩
    | _ => trivial

theorem supports_core {p : Program} {sel : Selector} : core.Supports p sel :=
  supports_of_all (fun _ _ => trivial) (fun _ _ => trivial) fun _ _ _ _ _ => id

end Solution

/-- Soundness of the fixpoint. When a run without plugins ends without a fault, for whatever
selector, its result is legible and satisfies every constraint of the program: whatever the entries,
the statements of reached methods, the receivers of dispatched calls and the calls demand is in it.
The run may start with contexts left behind by earlier ones. -/
theorem facts_closed {σ : Type} {b : Builder} {p : Program} (built : b.build = .ok p)
    {sel : Selector} {contexts : ContextTable} {own : σ} {fuel : Nat} {r : Run σ}
    (ran : analyze fuel (.all []) own (.initial p sel contexts) = r)
    (finished : r.verdict = .finished) : r.solver.Legible ∧ r.solver.facts.Closed p sel := by
  subst ran
  obtain ⟨running, quiet⟩ := Analysis.running_of_finished Solution.supports_core
    (Program.indexed_of_build built) finished
  exact ⟨running.sound.legible, running.closed quiet fun _ _ _ _ _ => id⟩

namespace Examples

/-- A program that stores an object in a field, loads it, and passes it to a method that returns its
argument. -/
def echo : List Declaration :=
  [.type "Object" (.nominal ⟨none, [], false, false⟩),
   .type "A" (.nominal ⟨some ⟨0⟩, [], false, false⟩),
   .field ⟨1⟩ "f" ⟨0⟩ false,
   .method ⟨⟨1⟩, "main", [], none⟩ true false,
   .method ⟨⟨1⟩, "echo", [⟨0⟩], some ⟨0⟩⟩ false false,
   .var ⟨0⟩ "a" ⟨1⟩, .var ⟨0⟩ "o" ⟨0⟩, .var ⟨0⟩ "loaded" ⟨0⟩, .var ⟨0⟩ "echoed" ⟨0⟩,
   .statement ⟨1⟩ (.ret (some ⟨1⟩)) (by simp),
   .statement ⟨0⟩ (.new ⟨2⟩ ⟨1⟩) (by simp),
   .statement ⟨0⟩ (.new ⟨3⟩ ⟨0⟩) (by simp),
   .statement ⟨0⟩ (.storeField ⟨2⟩ ⟨0⟩ ⟨3⟩) (by simp),
   .statement ⟨0⟩ (.loadField ⟨4⟩ ⟨2⟩ ⟨0⟩) (by simp),
   .call ⟨0⟩ .virtual ⟨⟨1⟩, "echo", [⟨0⟩], some ⟨0⟩⟩ (some ⟨2⟩) [⟨4⟩] (some ⟨5⟩),
   .entry ⟨0⟩]

def echoed : Run Unit :=
  analyze 100 (.all []) () (.initial (.ofDeclarations echo) (.object 2) default)

end Examples

open Examples in
theorem facts_closed_echo : (Builder.ofDeclarations echo).build = .ok (.ofDeclarations echo) ∧
    echoed.verdict = .finished ∧
    echoed.solver.facts.points (.var [] ⟨5⟩) ⟨[], .allocation ⟨0⟩ 1, ⟨0⟩, some ⟨0⟩⟩ ∧
    echoed.solver.Legible ∧ echoed.solver.facts.Closed (.ofDeclarations echo) (.object 2) := by
  have built : (Builder.ofDeclarations echo).build = _ :=
    Program.build_ofDeclarations (by decide +kernel)
  have finished : echoed.verdict = .finished := by decide +kernel
  exact ⟨built, finished, by decide +kernel, facts_closed built rfl finished⟩

end PointsTo
