import Mathlib.Data.List.Sort
import PointsTo.Proofs.Reached

/-!
The answers that a state gives when contexts are left out, in terms of its facts.
-/
namespace PointsTo

open Facts

/-- Looking up entities that all exist gives them all. -/
theorem exists_mapM {α β : Type} {f : α → Option β} {as : List α}
    (known : ∀ a ∈ as, ∃ b, f a = some b) :
    ∃ bs, as.mapM f = some bs ∧ ∀ b, b ∈ bs ↔ ∃ a ∈ as, f a = some b := by
  induction as with
  | nil => exact ⟨[], rfl, by simp⟩
  | cons a as ih =>
    obtain ⟨b, hb⟩ := known a (by simp)
    obtain ⟨bs, hbs, mem⟩ := ih fun a' ha' => known a' (by simp [ha'])
    refine ⟨b :: bs, by simp [hb, hbs], fun b' => ?_⟩
    rw [List.mem_cons, mem, List.exists_mem_cons_iff, hb, Option.some.injEq, eq_comm]

/-- Two ascending lists with the same members are the same. -/
theorem Ascends.ext {α : Type} [BEq α] [LawfulBEq α] {le : α → α → Bool} {as bs : List α}
    (antisymm : ∀ a b, le a b → le b a → a = b) (ha : Ascends le as) (hb : Ascends le bs)
    (same : ∀ a, a ∈ as ↔ a ∈ bs) : as = bs := by
  have irrefl : Std.Irrefl fun a b => le a b ∧ a ≠ b := ⟨fun a h => h.2 rfl⟩
  have asymmetric : Std.Antisymm fun a b => le a b ∧ a ≠ b :=
    ⟨fun a b h h' => antisymm a b h.1 h'.1⟩
  exact List.Pairwise.eq_of_mem_iff ha hb same

/-! ### Ids in ascending order -/

section Ids

variable {kind : Entity}

theorem ascends_ids (as : List (Id kind)) :
    Ascends (fun a b => decide (a ≤ b)) (ascending (fun a b => decide (a ≤ b)) as) := by
  apply ascends_ascending
  · intro a b
    rw [Bool.or_eq_true, decide_eq_true_iff, decide_eq_true_iff]
    exact Nat.le_total a.index b.index
  · intro a b c ab bc
    exact decide_eq_true (Nat.le_trans (of_decide_eq_true ab) (of_decide_eq_true bc))
  · intro a b ab ba
    exact Id.ext_iff.2 (Nat.le_antisymm (of_decide_eq_true ab) (of_decide_eq_true ba))

theorem ids_ext {as bs : List (Id kind)} (ha : Ascends (fun a b => decide (a ≤ b)) as)
    (hb : Ascends (fun a b => decide (a ≤ b)) bs) (same : ∀ a, a ∈ as ↔ a ∈ bs) : as = bs := by
  apply ha.ext _ hb same
  intro a b ab ba
  exact Id.ext_iff.2 (Nat.le_antisymm (of_decide_eq_true ab) (of_decide_eq_true ba))

theorem pairwise_ascending (as : List (Id kind)) :
    (ascending (fun a b => decide (a ≤ b)) as).Pairwise (· < ·) := by
  apply (ascends_ids as).imp
  rintro a b ⟨le, ne⟩
  exact Nat.lt_of_le_of_ne (of_decide_eq_true le) fun same => ne (Id.ext_iff.2 same)

/-- Ids that can all be looked up are listed in ascending order. -/
theorem exists_ascending {α : Type} {f : α → Option (Id kind)} {as : List α}
    (known : ∀ a ∈ as, ∃ b, f a = some b) :
    ∃ l, (do return ascending (fun a b => decide (a ≤ b)) (← as.mapM f)) = some l ∧
      l.Pairwise (· < ·) ∧ ∀ b, b ∈ l ↔ ∃ a ∈ as, f a = some b := by
  obtain ⟨bs, found, mem⟩ := exists_mapM known
  refine ⟨_, by rw [found]; rfl, pairwise_ascending bs, fun b => ?_⟩
  rw [mem_ascending, mem]

end Ids

theorem CopyTable.mem_copiesOf {kind copy : Entity} {t : CopyTable kind copy} {i : Id copy}
    {e : Id kind} : i ∈ t.copiesOf e ↔ ∃ pair, t.get? i = some pair ∧ pair.entity = e := by
  rw [copiesOf_eq, pairsOf, List.mem_filter, Table.mem_ids]
  constructor
  · rintro ⟨⟨pair, hp⟩, same⟩
    rw [hp] at same
    exact ⟨pair, hp, beq_iff_eq.1 same⟩
  · rintro ⟨pair, hp, rfl⟩
    refine ⟨⟨pair, hp⟩, ?_⟩
    rw [show t.table.get? i = some pair from hp]
    exact beq_self_eq_true pair.entity

namespace Solver

variable {s : Solver}

/-! ### Calls -/

/-- A call from a call site to a method, whatever the contexts. -/
def Links (s : Solver) (site : CallSiteId) (m : MethodId) : Prop :=
  ∃ e ∈ s.calls.edges, s.siteOf? e.site = some site ∧ s.methodOf? e.callee = some m

/-- Every call can be told when contexts are left out. -/
structure Labelled (s : Solver) : Prop where
  site : ∀ call, s.calls.Records call → ∃ site, s.siteOf? call.edge.site = some site
  callee : ∀ call, s.calls.Records call → ∃ m, s.methodOf? call.edge.callee = some m

theorem mem_copiesOf_site {cs : ContextSiteId} {site : CallSiteId} :
    cs ∈ s.elements.sites.copiesOf site ↔ s.siteOf? cs = some site := by
  rw [CopyTable.mem_copiesOf, siteOf?, Option.map_eq_some_iff]

theorem mem_copiesOf_method {cm : ContextMethodId} {m : MethodId} :
    cm ∈ s.elements.methods.copiesOf m ↔ s.methodOf? cm = some m := by
  rw [CopyTable.mem_copiesOf, methodOf?, Option.map_eq_some_iff]

theorem siteOf?_of_copy? {cs : ContextSiteId} {c : Situation} {site : CallSiteId}
    (h : s.elements.copy? s.elements.sites cs = some (c, site)) : s.siteOf? cs = some site := by
  obtain ⟨d, hd, -⟩ := Elements.copy?_eq_some_iff.1 h
  simp [siteOf?, hd]

theorem methodOf?_of_copy? {cm : ContextMethodId} {c : Situation} {m : MethodId}
    (h : s.elements.copy? s.elements.methods cm = some (c, m)) : s.methodOf? cm = some m := by
  obtain ⟨d, hd, -⟩ := Elements.copy?_eq_some_iff.1 h
  simp [methodOf?, hd]

theorem ascends_calleesOfSite? {site : CallSiteId} {l : List MethodId}
    (found : s.calleesOfSite? site = some l) : Ascends (fun a b => decide (a ≤ b)) l := by
  obtain ⟨callees, -, same⟩ := Option.bind_eq_some_iff.1 found
  cases same
  exact ascends_ids callees

namespace Labelled

theorem calleesOfSite? (h : s.Labelled) (site : CallSiteId) :
    ∃ l, s.calleesOfSite? site = some l ∧ l.Pairwise (· < ·) ∧ ∀ m, m ∈ l ↔ s.Links site m := by
  have known : ∀ cm ∈ (s.elements.sites.copiesOf site).flatMap s.calls.calleesOfSite,
      ∃ m, s.methodOf? cm = some m := by
    intro cm found
    obtain ⟨cs, -, found⟩ := List.mem_flatMap.1 found
    obtain ⟨call, recorded, ends⟩ := CallGraph.mem_calleesOfSite.1 found
    obtain ⟨-, rfl⟩ := Prod.mk.inj ends
    exact h.callee call recorded
  obtain ⟨l, found, ordered, mem⟩ := exists_ascending known
  refine ⟨l, found, ordered, fun m => ?_⟩
  simp only [mem, List.mem_flatMap, mem_copiesOf_site, CallGraph.mem_calleesOfSite]
  constructor
  · rintro ⟨cm, ⟨cs, hsite, call, recorded, ends⟩, hm⟩
    obtain ⟨rfl, rfl⟩ := Prod.mk.inj ends
    exact ⟨call.edge, CallGraph.mem_edges.2 ⟨call, recorded, rfl⟩, hsite, hm⟩
  · rintro ⟨e, found, hsite, hm⟩
    obtain ⟨call, recorded, rfl⟩ := CallGraph.mem_edges.1 found
    exact ⟨call.edge.callee, ⟨call.edge.site, hsite, call, recorded, rfl⟩, hm⟩

theorem callersOf? (h : s.Labelled) (m : MethodId) :
    ∃ l, s.callersOf? m = some l ∧ l.Pairwise (· < ·) ∧ ∀ site, site ∈ l ↔ s.Links site m := by
  have known : ∀ e ∈ (s.elements.methods.copiesOf m).flatMap s.calls.callersOf,
      ∃ site, s.siteOf? e.site = some site := by
    intro e found
    obtain ⟨cm, -, found⟩ := List.mem_flatMap.1 found
    obtain ⟨call, recorded, rfl, -⟩ := CallGraph.mem_callersOf.1 found
    exact h.site call recorded
  obtain ⟨l, found, ordered, mem⟩ := exists_ascending known
  refine ⟨l, found, ordered, fun site => ?_⟩
  simp only [mem, List.mem_flatMap, mem_copiesOf_method, CallGraph.mem_callersOf]
  constructor
  · rintro ⟨e, ⟨cm, hm, call, recorded, rfl, rfl⟩, hsite⟩
    exact ⟨call.edge, CallGraph.mem_edges.2 ⟨call, recorded, rfl⟩, hsite, hm⟩
  · rintro ⟨e, found, hsite, hm⟩
    obtain ⟨call, recorded, rfl⟩ := CallGraph.mem_edges.1 found
    exact ⟨call.edge, ⟨call.edge.callee, hm, call, recorded, rfl, rfl⟩, hsite⟩

end Labelled

/-! ### Answers in terms of facts -/

/-- What tells the objects of a variable apart: their allocation sites, and for made-up objects
their call sites and types. -/
def identitiesOf? (s : Solver) (v : VarId) : Option (List (Origin × Option TypeId)) := do
  (← s.objectsOf? v).mapM fun o => (s.elements.heap.get? o).map AbstractObject.identity

namespace Legible

theorem objectsOf? (h : s.Legible) (v : VarId) : ∃ l, s.objectsOf? v = some l ∧
    ∀ o, o ∈ l ↔ ∃ c w, s.facts.points (.var c v) w ∧ s.elements.heap.get? o = some w.object := by
  have known : ∀ x ∈ (s.elements.vars.copiesOf v).flatMap fun copy => (s.varObjects copy).toList,
      ∃ o, (s.elements.objects.get? x).map InContext.entity = some o := by
    intro x hx
    obtain ⟨copy, -, hx⟩ := List.mem_flatMap.1 hx
    obtain ⟨-, w, -, hw⟩ := h.objects _ x (HybridSet.mem_toList.1 hx)
    obtain ⟨o, ho, -⟩ := Elements.value?_eq_some_iff.1 hw
    obtain ⟨c, hc, -⟩ := Elements.copy?_eq_some_iff.1 ho
    exact ⟨o, Option.map_eq_some_iff.2 ⟨_, hc, rfl⟩⟩
  obtain ⟨l, hl, mem⟩ := exists_mapM known
  refine ⟨_, by rw [Solver.objectsOf?, hl]; rfl, fun o => ?_⟩
  rw [mem_ascending, mem]
  constructor
  · rintro ⟨x, among, ho⟩
    obtain ⟨copy, hcopy, hx⟩ := List.mem_flatMap.1 among
    rw [HybridSet.mem_toList] at hx
    obtain ⟨P, w, hP, hw⟩ := h.objects _ x hx
    obtain ⟨pair, hpair, rfl⟩ := CopyTable.mem_copiesOf.1 hcopy
    obtain ⟨⟨c, v'⟩, hv, rfl⟩ := Option.map_eq_some_iff.1 hP
    obtain ⟨d, hd, hc⟩ := Elements.copy?_eq_some_iff.1 hv
    cases hpair.symm.trans hd
    obtain ⟨o', ho', heap⟩ := Elements.value?_eq_some_iff.1 hw
    obtain ⟨e, he, -⟩ := Elements.copy?_eq_some_iff.1 ho'
    rw [he] at ho
    cases ho
    exact ⟨c, w, ⟨_, x, hP, hw, hx⟩, heap⟩
  · rintro ⟨c, w, ⟨p, x, hp, hw, hx⟩, heap⟩
    obtain ⟨o', ho', heap'⟩ := Elements.value?_eq_some_iff.1 hw
    cases Table.id_eq_of_key_eq heap heap' rfl
    obtain ⟨e, he, -⟩ := Elements.copy?_eq_some_iff.1 ho'
    have entity : (s.elements.objects.get? x).map InContext.entity = some o := by
      rw [he]
      rfl
    refine ⟨x, List.mem_flatMap.2 ?_, entity⟩
    cases p with
    | var copy =>
      obtain ⟨⟨c', v'⟩, hv, eq⟩ := Option.map_eq_some_iff.1 hp
      cases eq
      obtain ⟨d, hd, -⟩ := Elements.copy?_eq_some_iff.1 hv
      exact ⟨copy, CopyTable.mem_copiesOf.2 ⟨_, hd, rfl⟩, HybridSet.mem_toList.2 hx⟩
    | field o' f =>
      obtain ⟨_, -, eq⟩ := Option.map_eq_some_iff.1 hp
      cases eq
    | array o' =>
      obtain ⟨_, -, eq⟩ := Option.map_eq_some_iff.1 hp
      cases eq
    | static f => cases hp

theorem identitiesOf? (h : s.Legible) (v : VarId) : ∃ l, s.identitiesOf? v = some l ∧
    ∀ i, i ∈ l ↔ ∃ c w, s.facts.points (.var c v) w ∧ w.object.identity = i := by
  obtain ⟨objects, hobjects, mem⟩ := h.objectsOf? v
  have known : ∀ o ∈ objects,
      ∃ i, (s.elements.heap.get? o).map AbstractObject.identity = some i := by
    intro o ho
    obtain ⟨c, w, -, heap⟩ := (mem o).1 ho
    exact ⟨_, Option.map_eq_some_iff.2 ⟨w.object, heap, rfl⟩⟩
  obtain ⟨l, hl, mem'⟩ := exists_mapM known
  refine ⟨l, by rw [Solver.identitiesOf?, hobjects]; exact hl, fun i => ?_⟩
  rw [mem']
  constructor
  · rintro ⟨o, ho, hi⟩
    obtain ⟨c, w, points, heap⟩ := (mem o).1 ho
    rw [heap] at hi
    exact ⟨c, w, points, Option.some.inj hi⟩
  · rintro ⟨c, w, fact, rfl⟩
    obtain ⟨-, x, -, hw, -⟩ := id fact
    obtain ⟨o, -, heap⟩ := Elements.value?_eq_some_iff.1 hw
    exact ⟨o, (mem o).2 ⟨c, w, fact, heap⟩, by rw [heap]; rfl⟩

theorem labelled (h : s.Legible) : s.Labelled where
  site call recorded := by
    obtain ⟨_, _, site, _, _, -, hsite, -⟩ := h.calls call recorded
    exact ⟨site, siteOf?_of_copy? hsite⟩
  callee call recorded := by
    obtain ⟨_, _, _, _, m, -, -, hm⟩ := h.calls call recorded
    exact ⟨m, methodOf?_of_copy? hm⟩

theorem links_iff (h : s.Legible) {site : CallSiteId} {m : MethodId} :
    s.Links site m ↔ ∃ via c c', s.facts.calls via c site c' m := by
  constructor
  · rintro ⟨e, found, hsite, hm⟩
    obtain ⟨call, recorded, rfl⟩ := CallGraph.mem_edges.1 found
    obtain ⟨via, c, site', c', m', hvia, hsite', hm'⟩ := h.calls call recorded
    cases hsite.symm.trans (siteOf?_of_copy? hsite')
    cases hm.symm.trans (methodOf?_of_copy? hm')
    exact ⟨via, c, c', call, recorded, hvia, hsite', hm'⟩
  · rintro ⟨via, c, c', call, recorded, -, hsite, hm⟩
    exact ⟨call.edge, CallGraph.mem_edges.2 ⟨call, recorded, rfl⟩, siteOf?_of_copy? hsite,
      methodOf?_of_copy? hm⟩

theorem calleesOfSite? (h : s.Legible) (site : CallSiteId) : ∃ l, s.calleesOfSite? site = some l ∧
    ∀ m, m ∈ l ↔ ∃ via c c', s.facts.calls via c site c' m := by
  obtain ⟨l, found, -, mem⟩ := h.labelled.calleesOfSite? site
  exact ⟨l, found, fun m => (mem m).trans h.links_iff⟩

theorem callersOf? (h : s.Legible) (m : MethodId) : ∃ l, s.callersOf? m = some l ∧
    ∀ site, site ∈ l ↔ ∃ via c c', s.facts.calls via c site c' m := by
  obtain ⟨l, found, -, mem⟩ := h.labelled.callersOf? m
  exact ⟨l, found, fun site => (mem site).trans h.links_iff⟩

theorem mem_reachableMethods (h : s.Legible) (tallied : s.Tallied) {m : MethodId} :
    m ∈ s.reachableMethods ↔ ∃ c, s.facts.reached c m := by
  rw [reachableMethods, mem_ascending, Std.TreeSet.mem_toList]
  constructor
  · intro hm
    obtain ⟨cm, pair, reached, hpair, rfl⟩ := tallied.sound m hm
    obtain ⟨c, m, means⟩ := h.reached cm reached
    obtain ⟨d, hd, -⟩ := Elements.copy?_eq_some_iff.1 means
    cases hpair.symm.trans hd
    exact ⟨c, cm, reached, means⟩
  · rintro ⟨c, cm, reached, hm⟩
    obtain ⟨pair, hpair, mem⟩ := tallied.complete cm reached
    obtain ⟨d, hd, -⟩ := Elements.copy?_eq_some_iff.1 hm
    cases hpair.symm.trans hd
    exact mem

end Legible
end Solver
end PointsTo
