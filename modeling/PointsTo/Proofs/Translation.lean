import PointsTo.Proofs.Constraints

/-!
Solutions of the constraints of one program read as solutions for another one, or for another selector.
Situations and objects are translated, and the other program demands of the translations what the one
demands.
-/
namespace PointsTo

/-- How situations and objects are translated from one program and selector to another program and
selector. Situations of methods and of objects are translated apart. -/
structure Translation (p : Program) (sel : Selector) (p' : Program) (sel' : Selector) where
  situation : Situation → Situation
  heap : Situation → Situation
  object : AbstractObject → AbstractObject
  situation_nil : situation [] = []
  heap_nil : heap [] = []
  type : ∀ o, (object o).type = o.type
  mock : ∀ description site type container, object ⟨.mock description site, type, container⟩ =
    ⟨.mock description site, type, container⟩
  callee : ∀ c site, situation (sel.calleeSituation c site) = sel'.calleeSituation (situation c) site
  dispatch : ∀ c site (v : Value), situation (sel.dispatchSituation p.toCatalog c site v) =
    sel'.dispatchSituation p'.toCatalog (situation c) site ⟨heap v.context, object v.object⟩
  allocation : ∀ c, heap (sel.heapSituation c) = sel'.heapSituation (situation c)
  entries : p.entries ⊆ p'.entries
  callSites : p'.callSites = p.callSites
  resolve : p'.resolve = p.resolve
  dispatches : p'.dispatch = p.dispatch
  isSubtype : p'.isSubtype = p.isSubtype
  /-- Every statement stands in the other program, too, and objects are allocated where it stands. -/
  methods : ∀ (m : MethodId) d, p.methods[m]? = some d → ∃ d', p'.methods[m]? = some d' ∧
    d'.receiver = d.receiver ∧ d'.params = d.params ∧ d.returns ⊆ d'.returns ∧
    ∀ i s, d.body[i]? = some s → ∃ j, d'.body[j]? = some s ∧
      ∀ type, object ⟨.allocation m i, type, some m⟩ = ⟨.allocation m j, type, some m⟩

namespace Translation

variable {p p' : Program} {sel sel' : Selector} (h : Translation p sel p' sel')

def value (v : Value) : Value := ⟨h.heap v.context, h.object v.object⟩

def place : Place → Place
  | .var c v => .var (h.situation c) v
  | .field o field => .field (h.value o) field
  | .array o => .array (h.value o)
  | .static field => .static field

/-- The facts whose translations are among some facts. -/
def pullback (F : Solution) : Solution where
  reached c m := F.reached (h.situation c) m
  points P v := F.points (h.place P) (h.value v)
  calls via c site c' m := F.calls via (h.situation c) site (h.situation c') m

variable {h} {F : Solution}

theorem passes_value {k : FlowKind} {v : Value} : p'.Passes k (h.value v) ↔ p.Passes k v := by
  cases k with
  | cast => rw [Program.Passes, Program.Passes, h.isSubtype, value, h.type]
  | _ => rfl

theorem carries_pullback {P Q : Place} {k : FlowKind}
    (carried : (F.reading p').carries (h.place P) (h.place Q) k) :
    ((h.pullback F).reading p).carries P Q k := fun v points pass =>
  carried (h.value v) points (passes_value.2 pass)

theorem site_pullback {c : Situation} {site : CallSiteId} {decl : CallSite}
    (holds : (F.reading p').Site p' sel' (h.situation c) site decl) :
    ((h.pullback F).reading p).Site p sel c site decl := by
  have named {via : Via} (holds : (F.reading p').NamedCall p' sel' (h.situation c) site decl via) :
      ((h.pullback F).reading p).NamedCall p sel c site decl via := by
    intro callee target
    rw [← h.resolve] at target
    have call := holds callee target
    rw [← h.callee] at call
    exact call
  unfold Reading.Site at holds ⊢
  split
  next hk =>
    rw [hk] at holds
    exact named holds
  next hk =>
    rw [hk] at holds
    exact named holds
  next => trivial
  next => trivial
  next call hk =>
    rw [hk] at holds
    intro concat result type hr ht
    have points := holds concat result type hr ht
    have same : h.value (Reading.concatenated site type decl) =
        Reading.concatenated site type decl := by
      rw [value, Reading.concatenated, h.heap_nil, h.mock]
    rw [← same] at points
    exact points

/-- The statement may stand in another place in the other program. -/
theorem reached_pullback {c : Situation} {m : MethodId} {i j : Nat} {s : Statement}
    (same : ∀ type, h.object ⟨.allocation m i, type, some m⟩ = ⟨.allocation m j, type, some m⟩)
    (holds : (F.reading p').Reached p' sel' (h.situation c) m j s) :
    ((h.pullback F).reading p).Reached p sel c m i s := by
  cases s with
  | new lhs type =>
    have points : F.points (.var (h.situation c) lhs)
        ⟨sel'.heapSituation (h.situation c), .allocation m j, type, some m⟩ := holds
    rw [← h.allocation, ← same] at points
    exact points
  | assign | cast | loadStatic | storeStatic => exact carries_pullback holds
  | invoke site => exact fun decl hd => site_pullback (holds decl (by rw [h.callSites]; exact hd))
  | loadField | storeField | loadArray | storeArray | ret => trivial

theorem object_pullback {c : Situation} {o : Value} {s : Statement}
    (holds : (F.reading p').Object p' sel' (h.situation c) (h.value o) s) :
    ((h.pullback F).reading p).Object p sel c o s := by
  cases s with
  | loadField | storeField | loadArray | storeArray => exact carries_pullback holds
  | invoke site =>
    intro decl hd callee target
    rw [← h.dispatches, ← h.type] at target
    obtain ⟨calls, binds⟩ := holds decl (by rw [h.callSites]; exact hd) callee target
    have selected := h.dispatch c site o
    refine ⟨fun via hv => ?_, fun d this hm ht => ?_⟩
    · have call := calls via hv
      rw [value, ← selected] at call
      exact call
    · obtain ⟨d', hm', receiver, -⟩ := h.methods callee d hm
      have bound := binds d' this hm' (receiver.trans ht)
      rw [value, ← selected] at bound
      exact bound
  | _ => trivial

theorem base?_eq (h : Translation p sel p' sel') {s : Statement} : p'.base? s = p.base? s := by
  cases s with
  | invoke => rw [Catalog.base?, Catalog.base?, h.callSites]
  | _ => rfl

/-- Read back, a solution of the other program's constraints solves those of the one. -/
theorem closed_pullback (closed : F.Closed p' sel') : (h.pullback F).Closed p sel where
  entries m hm := by
    have reached := closed.entries m (h.entries hm)
    rw [← h.situation_nil] at reached
    exact reached
  statements c m reached d hd i s hs := by
    obtain ⟨d', hd', -, -, -, body⟩ := h.methods m d hd
    obtain ⟨j, hs', same⟩ := body i s hs
    exact reached_pullback same (closed.statements _ m reached d' hd' j s hs')
  objects c m d reached hd s mem v base o points := by
    obtain ⟨d', hd', -, -, -, body⟩ := h.methods m d hd
    obtain ⟨i, hs⟩ := Array.mem_iff_getElem?.1 mem
    obtain ⟨j, hs', -⟩ := body i s hs
    exact object_pullback (closed.objects _ m d' reached hd' s (Array.mem_of_getElem? hs') v
      (h.base?_eq.trans base) (h.value o) points)
  callees via c site c' m call := closed.callees via _ site _ m call
  links via c site c' m call core decl d hd hm := by
    obtain ⟨d', hm', receiver, params, returns, -⟩ := h.methods m d hm
    obtain ⟨args, results, bases⟩ := closed.links via _ site _ m call core decl d'
      (by rw [h.callSites]; exact hd) hm'
    exact ⟨fun pair mem => carries_pullback (args pair (by rw [params]; exact mem)),
      fun result hr value hv => carries_pullback (results result hr value (returns hv)),
      fun special base this hb ht =>
        carries_pullback (bases special base this hb (receiver.trans ht))⟩

end Translation
end PointsTo
