import PointsTo.Proofs.Extensions
import PointsTo.Proofs.Limits.Ends

/-!
States in which the contexts are those of the selector: none is longer than it allows, and under a
selector of call sites, callees are in the contexts of their calls. The ids of contexts may come from
a table that is shared with other analyses: what counts are the contexts that entities are put in.
-/
namespace PointsTo

open Facts

/-! ### Entities in contexts -/

/-- The greatest length of the contexts of an object: an allocated object leaves room for the element
that its methods are told apart by, while a made-up object is in the context of a method, or in none. -/
def AbstractObject.heapLimit (a : AbstractObject) (k : Nat) : Nat :=
  match a.origin with
  | .allocation .. => k - 1
  | .mock .. => k

namespace AbstractObject

variable {a : AbstractObject} {k : Nat}

theorem heapLimit_le : a.heapLimit k ≤ k := by
  unfold heapLimit
  split
  · exact Nat.sub_le k 1
  · exact Nat.le_refl k

theorem le_heapLimit : k - 1 ≤ a.heapLimit k := by
  unfold heapLimit
  split
  · exact Nat.le_refl _
  · exact Nat.sub_le k 1

end AbstractObject

namespace Elements

/-- The id of a context names one of at most `k` elements. -/
def Allows (e : Elements) (k : Nat) (c : ContextId) : Prop :=
  ∃ l, e.contexts.get? c = some l ∧ l.length ≤ k

/-- An object is known, and may be in a context under the limit `k`. -/
def Houses (e : Elements) (k : Nat) (o : ObjectId) (c : ContextId) : Prop :=
  ∃ a, e.heap.get? o = some a ∧ e.Allows (a.heapLimit k) c

/-- An object is known, and may be in any context under the limit `k`. -/
def Roams (e : Elements) (k : Nat) (o : ObjectId) : Prop :=
  ∃ a, e.heap.get? o = some a ∧ a.heapLimit k = k

/-- Under a selector of call sites, a context is that of a call site with the call site in front, cut to
the limit. -/
def Continues (e : Elements) (sel : Selector) (cs : ContextSiteId) (c : ContextId) : Prop :=
  ∀ k, sel = .callSite k → ∃ site l, e.sites.get? cs = some site ∧
    e.contexts.get? site.context = some l ∧
    e.contexts.get? c = some (Context.pushWithin k (.callSite site.entity) l)

/-- The context of a callee continues that of the call site. -/
def Follows (e : Elements) (sel : Selector) (cs : ContextSiteId) (cm : ContextMethodId) : Prop :=
  ∃ callee, e.methods.get? cm = some callee ∧ e.Continues sel cs callee.context

/-- All entities are in contexts that the limit `k` allows. -/
structure Limited (e : Elements) (k : Nat) : Prop where
  vars : ∀ x pair, e.vars.get? x = some pair → e.Allows k pair.context
  objects : ∀ o pair, e.objects.get? o = some pair → e.Houses k pair.entity pair.context
  methods : ∀ m pair, e.methods.get? m = some pair → e.Allows k pair.context
  sites : ∀ s pair, e.sites.get? s = some pair → e.Allows k pair.context

variable {e f : Elements} {j k : Nat} {c : ContextId} {o : ObjectId}

theorem Allows.within (h : e.Allows k c) (w : e.Within f) : f.Allows k c :=
  h.imp fun _ => .imp_left (w.contexts c _)

theorem Allows.mono (h : e.Allows j c) (le : j ≤ k) : e.Allows k c :=
  h.imp fun _ => .imp_right fun short => Nat.le_trans short le

theorem allows_emptyId : e.Allows k ContextTable.emptyId :=
  ⟨[], ContextTable.get?_emptyId, Nat.zero_le k⟩

/-- The context that an allowed id stands for. -/
theorem Allows.get? (h : e.Allows k c) : e.contexts.get? c = some (e.context c) := by
  obtain ⟨l, hl, -⟩ := h
  rw [context, ContextTable.context, hl]
  rfl

theorem Continues.within {sel : Selector} {cs : ContextSiteId} (h : e.Continues sel cs c)
    (w : e.Within f) : f.Continues sel cs c := by
  intro k same
  obtain ⟨site, l, hsite, hl, hc⟩ := h k same
  exact ⟨site, l, w.sites cs site hsite, w.contexts _ l hl, w.contexts c _ hc⟩

theorem Follows.within {sel : Selector} {cs : ContextSiteId} {cm : ContextMethodId}
    (h : e.Follows sel cs cm) (w : e.Within f) : f.Follows sel cs cm := by
  obtain ⟨callee, hcallee, continues⟩ := h
  exact ⟨callee, w.methods cm callee hcallee, continues.within w⟩

theorem Houses.within (h : e.Houses k o c) (w : e.Within f) : f.Houses k o c :=
  h.imp fun _ => .imp (w.heap o _) (·.within w)

theorem Houses.allows (h : e.Houses k o c) : e.Allows k c := by
  obtain ⟨a, -, allowed⟩ := h
  exact allowed.mono AbstractObject.heapLimit_le

theorem Roams.within (h : e.Roams k o) (w : e.Within f) : f.Roams k o :=
  h.imp fun _ => .imp_left (w.heap o _)

theorem Roams.houses (h : e.Roams k o) (hc : e.Allows k c) : e.Houses k o c := by
  obtain ⟨a, ha, same⟩ := h
  exact ⟨a, ha, same.symm ▸ hc⟩

/-- Any known object may be in a context that is shorter than the limit by one. -/
theorem houses_of_allows {a : AbstractObject} (ho : e.heap.get? o = some a)
    (hc : e.Allows (k - 1) c) : e.Houses k o c := ⟨a, ho, hc.mono AbstractObject.le_heapLimit⟩

/-- What comes new into the tables is in contexts that the limit `k` allows. -/
structure Widens (k : Nat) (e f : Elements) : Prop where
  within : e.Within f
  vars : ∀ {x pair}, f.vars.get? x = some pair →
    e.vars.get? x = some pair ∨ e.Allows k pair.context
  objects : ∀ {o pair}, f.objects.get? o = some pair →
    e.objects.get? o = some pair ∨ e.Houses k pair.entity pair.context
  methods : ∀ {m pair}, f.methods.get? m = some pair →
    e.methods.get? m = some pair ∨ e.Allows k pair.context
  sites : ∀ {s pair}, f.sites.get? s = some pair →
    e.sites.get? s = some pair ∨ e.Allows k pair.context

theorem Limited.widen (h : e.Limited k) (ef : Widens k e f) : f.Limited k where
  vars x pair hx := ((ef.vars hx).elim (h.vars x pair) id).within ef.within
  objects o pair ho := ((ef.objects ho).elim (h.objects o pair) id).within ef.within
  methods m pair hm := ((ef.methods hm).elim (h.methods m pair) id).within ef.within
  sites s pair hs := ((ef.sites hs).elim (h.sites s pair) id).within ef.within

theorem widens_internContext {l : Context} : Widens k e (e.internContext l).2 :=
  ⟨within_internContext, .inl, .inl, .inl, .inl⟩

theorem widens_internHeap {a : AbstractObject} :
    Widens k e { e with heap := (e.heap.intern a).2 } :=
  ⟨{ Within.refl e with heap := Table.within_intern }, .inl, .inl, .inl, .inl⟩

theorem widens_internVar {v : VarId} (hc : e.Allows k c) : Widens k e (e.internVar c v).2 := by
  refine ⟨within_internVar, fun hx => (CopyTable.get?_of_intern hx).imp_right ?_, .inl, .inl, .inl⟩
  rintro rfl
  exact hc

theorem widens_internObject (ho : e.Houses k o c) : Widens k e (e.internObject c o).2 := by
  refine ⟨within_internObject, .inl, fun hx => (CopyTable.get?_of_intern hx).imp_right ?_, .inl,
    .inl⟩
  rintro rfl
  exact ho

theorem widens_internMethod {m : MethodId} (hc : e.Allows k c) :
    Widens k e (e.internMethod c m).2 := by
  refine ⟨within_internMethod, .inl, .inl, fun hx => (CopyTable.get?_of_intern hx).imp_right ?_,
    .inl⟩
  rintro rfl
  exact hc

theorem widens_internSite {s : CallSiteId} (hc : e.Allows k c) :
    Widens k e (e.internSite c s).2 := by
  refine ⟨within_internSite, .inl, .inl, .inl, fun hx => (CopyTable.get?_of_intern hx).imp_right ?_⟩
  rintro rfl
  exact hc

/-- A made-up object may be in every context that the limit allows. -/
theorem roams_mock {description : String} {site : CallSiteId} {type : TypeId}
    {container : Option MethodId} :
    (e.mock description site type container).2.Roams k
      (e.mock description site type container).1 := by
  obtain ⟨a, ha, same, -⟩ :=
    (Table.intern_spec e.heap ⟨.mock description site, type, container⟩).2.1
  refine ⟨a, ha, ?_⟩
  obtain ⟨origin, type', container'⟩ := a
  cases origin with
  | allocation m i => cases congrArg Prod.snd same
  | mock => rfl

end Elements

/-! ### Selected contexts -/

namespace Selector

/-- A selection gives an allowed id, or a context that is not too long. -/
def Fits (E : Fault → Prop) (e : Elements) (k : Nat) : Except Fault Selection → Prop
  | .ok (.known c) => e.Allows k c
  | .ok (.built l) => l.length ≤ k
  | .error fault => E fault

/-- The faults of the solver's own work are among these: ids that name nothing and states that should
not arise, and a lack of room for contexts under limits that leave none. -/
structure Endures (sel : Selector) (E : Fault → Prop) : Prop where
  unknown : E .unknownId
  violated : ∀ text, E (.invariantViolation text)
  crowded : Context.limitBound ≤ sel.limit → E .noRoom

/-- So are the other faults that a run may end with: calls that nobody takes care of. -/
structure Tolerates (sel : Selector) (E : Fault → Prop) : Prop extends Endures sel E where
  unsupported : ∀ text mechanism, E (.unsupportedDynamicCall text mechanism)

variable {E : Fault → Prop} {e : Elements} {sel : Selector}

theorem fits_known {α : Type} {k : Nat} {x : Option α} {f : α → Except Fault Selection}
    (unknown : E .unknownId) (h : ∀ a, x = some a → Fits E e k (f a)) :
    Fits E e k (known x >>= f) := by
  cases x with
  | none => exact unknown
  | some a => exact h a rfl

theorem fits_pushed {k : Nat} {element : ContextElement} {base : ContextId}
    (crowded : Context.limitBound ≤ k → E .noRoom) : Fits E e k (pushed e k element base) := by
  unfold pushed Context.extend
  split
  · exact List.length_take_le _ _
  next h => exact crowded (Nat.le_of_not_lt h)

variable (endures : sel.Endures E) (limited : e.Limited sel.limit)
include endures limited

theorem fits_calleeContext (site : ContextSiteId) :
    Fits E e sel.limit (sel.calleeContext e site) := by
  cases sel with
  | insensitive => exact Elements.allows_emptyId
  | callSite k => exact fits_known endures.unknown fun _ _ => fits_pushed endures.crowded
  | object k | type k => exact fits_known endures.unknown fun pair hs => limited.sites site pair hs

theorem fits_dispatchContext {p : Catalog} {site : ContextSiteId} {o : ContextObjectId} :
    Fits E e sel.limit (sel.dispatchContext p e site o) := by
  cases sel with
  | insensitive => exact fits_calleeContext endures limited site
  | callSite k => exact fits_calleeContext endures limited site
  | object k => exact fits_known endures.unknown fun _ _ => fits_pushed endures.crowded
  | type k =>
    exact fits_known endures.unknown fun _ _ => fits_known endures.unknown fun _ _ =>
      fits_pushed endures.crowded

omit endures in
/-- A selector of call sites puts the call site in front of its context. -/
theorem continues_calleeContext {site : ContextSiteId} {selection : Selection}
    (chosen : sel.calleeContext e site = .ok selection) :
    (e.settle selection).2.Continues sel site (e.settle selection).1 := by
  rintro k rfl
  rw [calleeContext] at chosen
  cases hsite : e.sites.get? site with
  | none =>
    rw [hsite] at chosen
    cases chosen
  | some pair =>
    rw [hsite] at chosen
    obtain ⟨l, extended, rfl⟩ : ∃ l,
        Context.extend k (.callSite pair.entity) (e.context pair.context) = .ok l ∧
          .built l = selection := by
      change Selection.built <$> Context.extend k _ (e.context pair.context) = _ at chosen
      cases extended : Context.extend k (.callSite pair.entity) (e.context pair.context) with
      | error =>
        rw [extended] at chosen
        cases chosen
      | ok l =>
        rw [extended] at chosen
        exact ⟨l, rfl, Except.ok.inj chosen⟩
    obtain ⟨-, rfl⟩ := Context.extend_eq_ok_iff.1 extended
    exact ⟨pair, e.context pair.context, hsite,
      Elements.within_internContext.contexts _ _ (limited.sites site pair hsite).get?,
      ContextTable.get?_intern⟩

omit endures in
theorem continues_dispatchContext {p : Catalog} {site : ContextSiteId} {o : ContextObjectId}
    {selection : Selection} (chosen : sel.dispatchContext p e site o = .ok selection) :
    (e.settle selection).2.Continues sel site (e.settle selection).1 := by
  cases sel with
  | insensitive => exact nofun
  | callSite k => exact continues_calleeContext limited chosen
  | object k | type k => exact nofun

/-- The context of an allocated object leaves room for one more element, unless there is none. -/
theorem fits_heapContext {cm : ContextMethodId} :
    Fits E e (sel.limit - 1) (sel.heapContext e cm) := by
  unfold heapContext
  split
  · exact Elements.allows_emptyId
  · refine fits_known endures.unknown fun pair hm => ?_
    have allowed := limited.methods cm pair hm
    dsimp only
    split
    next short => exact ⟨_, allowed.get?, by omega⟩
    next => exact List.length_take_le _ _

end Selector

/-! ### States -/

namespace Solver

/-- The contexts of a state, also those of the calls that plugins are still to be asked about, are no
longer than the selector allows, and callees are in contexts that follow from their calls. -/
structure Bounded (sel : Selector) (s : Solver) : Prop where
  selector : s.selector = sel
  elements : s.elements.Limited sel.limit
  asked : ∀ receiver c site, .unresolved receiver c site ∈ s.events.toList →
    s.elements.Allows sel.limit c
  called : ∀ cs cm, s.Pending cs cm → s.elements.Follows sel cs cm

/-- Everything that has an id keeps it. -/
abbrev Deepens (s t : Solver) : Prop := s.elements.Within t.elements

instance : IsPreorder Solver Deepens where
  refl s := .refl s.elements
  trans _ _ _ := .trans

theorem deepens_of_same {s t : Solver} (same : t.elements = s.elements) : s.Deepens t := by
  rw [Deepens, same]
  exact .refl s.elements

variable {sel : Selector} {s t : Solver}

theorem bounded_initial {p : Program} {contexts : ContextTable} :
    (initial p sel contexts).Bounded sel where
  selector := rfl
  elements := ⟨nofun, nofun, nofun, nofun⟩
  asked _ _ _ := nofun
  called := by
    rintro cs cm (⟨e, he, -⟩ | ⟨call, ⟨i, hi⟩, -⟩)
    · cases he
    · cases hi

namespace Bounded

variable (h : s.Bounded sel)
include h

theorem withElements {e : Elements} (widens : s.elements.Widens sel.limit e) :
    Bounded sel { s with elements := e } where
  selector := h.selector
  elements := h.elements.widen widens
  asked receiver c site he := (h.asked receiver c site he).within widens.within
  called cs cm pending := (h.called cs cm pending).within widens.within

/-- Nothing is put in a context. -/
theorem of_same (selector : t.selector = s.selector) (elements : t.elements = s.elements)
    (events : ∀ e ∈ t.events.toList, e ∈ s.events.toList)
    (called : ∀ {cs cm}, t.Pending cs cm → s.Pending cs cm ∨ s.elements.Follows sel cs cm) :
    t.Bounded sel where
  selector := selector.trans h.selector
  elements := elements ▸ h.elements
  asked receiver c site he := elements ▸ h.asked receiver c site (events _ he)
  called cs cm pending := elements ▸ (called pending).elim (h.called cs cm) id

theorem announce {e : Event} (allowed : ∀ receiver c site, e = .unresolved receiver c site →
    s.elements.Allows sel.limit c) : (s.announce e).Bounded sel where
  selector := h.selector
  elements := h.elements
  asked receiver c site he := (Queue.mem_push.1 he).elim (h.asked receiver c site) fun new =>
    allowed receiver c site new.symm
  called := h.called

theorem addToNode {n : NodeId} {o : ContextObjectId} : (s.addToNode n o).Bounded sel := by
  rw [addToNode_eq, scheduleIf_eq]
  exact h.of_same rfl rfl (fun _ => id) .inl

theorem uniteInto {n : NodeId} {objects : Objects} : (s.uniteInto n objects).Bounded sel := by
  rw [uniteInto_eq, scheduleIf_eq]
  exact h.of_same rfl rfl (fun _ => id) .inl

theorem addObject {p : Pointer} {o : ContextObjectId} : (s.addObject p o).Bounded sel :=
  addToNode (h.of_same (t := (s.internNode p).2) rfl rfl (fun _ => id) .inl)

theorem addObjectIn {c d : ContextId} {v : VarId} {o : ObjectId}
    (hc : s.elements.Allows sel.limit c) (ho : s.elements.Houses sel.limit o d) :
    (s.addObjectIn c v d o).Bounded sel :=
  have interned := h.withElements (Elements.widens_internVar (v := v) hc)
  (interned.withElements (Elements.widens_internObject (ho.within Elements.within_internVar))).addObject

theorem addObjectsIn {c : ContextId} {v : VarId} {objects : Objects}
    (hc : s.elements.Allows sel.limit c) : (s.addObjectsIn c v objects).Bounded sel := by
  unfold Solver.addObjectsIn
  split
  · exact h
  · have interned := h.withElements (Elements.widens_internVar (v := v) hc)
    exact (interned.of_same (t := ((s.internVar c v).2.internNode _).2) rfl rfl (fun _ => id) .inl).uniteInto

end Bounded
end Solver

end PointsTo
