import Mathlib.Data.Option.Defs
import PointsTo.Proofs.Sound
import PointsTo.Solver.Update

/-!
States that differ in the numbers of contexts only. A bond tells which ids stand for the same contexts
in two states; it grows as the states do.
-/
namespace PointsTo

/-- Pairs of ids, one of each of two states, that stand for the same context. -/
abbrev Bond := ContextId → ContextId → Prop

/-! ### Tables side by side -/

theorem rel_getElem? {α β : Type} {R : α → β → Prop} {as : List α} {bs : List β}
    (h : List.Forall₂ R as bs) (i : Nat) : Option.Rel R as[i]? bs[i]? := by
  induction h generalizing i with
  | nil => exact .none
  | cons hab _ ih =>
    cases i with
    | zero => exact .some hab
    | succ i => exact ih i

namespace Table

variable {kind : Entity} {α : Type} [Coded α] {R : α → α → Prop} {t t' : DistinctTable kind α}
  {x y : α}

theorem rel_get? (h : List.Forall₂ R t.toList t'.toList) (i : Id kind) :
    Option.Rel R (t.get? i) (t'.get? i) := by
  rw [get?, get?, ← Array.getElem?_toList, ← Array.getElem?_toList]
  exact rel_getElem? h i.index

/-- Entries that belong together have the same position. -/
theorem positions_eq (h : List.Forall₂ R t.toList t'.toList)
    (unique : ∀ a b, R a b → (a = x ↔ b = y)) : t'.positions[y]? = t.positions[x]? := by
  apply Option.ext
  intro n
  rw [t.positions_iff, t'.positions_iff]
  change (t'.get? ⟨n⟩).map id = some y ↔ (t.get? ⟨n⟩).map id = some x
  have here := rel_get? h ⟨n⟩
  generalize t.get? ⟨n⟩ = a at here ⊢
  generalize t'.get? ⟨n⟩ = b at here ⊢
  cases here with
  | none => simp
  | some related => simpa using (unique _ _ related).symm

theorem toList_push (fresh : t.positions[id x]? = none) :
    (t.push x fresh).toList = t.toList ++ [x] := Array.toList_push

/-- Interning entries that belong together gives the same id. -/
theorem intern_rel (h : List.Forall₂ R t.toList t'.toList) (related : R x y)
    (unique : ∀ a b, R a b → (a = x ↔ b = y)) :
    (t'.intern y).1 = (t.intern x).1 ∧
      List.Forall₂ R (t.intern x).2.toList (t'.intern y).2.toList := by
  have positions : t'.positions[id y]? = t.positions[id x]? := positions_eq h unique
  unfold Table.intern
  split
  next i found =>
    split
    next j found' =>
      cases (found.symm.trans positions).trans found'
      exact ⟨rfl, h⟩
    next missing => cases (missing.symm.trans positions.symm).trans found
  next missing =>
    split
    next j found => cases (found.symm.trans positions.symm).trans missing
    next missing' =>
      have size : t'.size = t.size := h.length_eq.symm
      rw [toList_push, toList_push, size]
      exact ⟨rfl, List.rel_append h (.cons related .nil)⟩

end Table

/-! ### Twins -/

section Twins

variable {kind copy : Entity} (W : Bond)

/-- The same entity, in contexts that correspond. -/
structure InContext.Twins (pair pair' : InContext kind) : Prop where
  entity : pair'.entity = pair.entity
  context : W pair.context pair'.context

/-- The same ids stand for the same entities, in contexts that correspond. -/
def CopyTable.Twins (t t' : CopyTable kind copy) : Prop :=
  List.Forall₂ (InContext.Twins W) t.table.toList t'.table.toList

/-- Everything but contexts has the same id. -/
structure Elements.Twins (e e' : Elements) : Prop where
  contexts : ∀ c c', W c c' → ∃ l, e.contexts.get? c = some l ∧ e'.contexts.get? c' = some l
  empty : W ContextTable.emptyId ContextTable.emptyId
  heap : e'.heap = e.heap
  vars : e.vars.Twins W e'.vars
  objects : e.objects.Twins W e'.objects
  methods : e.methods.Twins W e'.methods
  sites : e.sites.Twins W e'.sites

inductive Selection.Twins : Selection → Selection → Prop
  | known {c c' : ContextId} (same : W c c') : Twins (.known c) (.known c')
  | built (context : Context) : Twins (.built context) (.built context)

inductive Event.Twins : Event → Event → Prop
  | method (m : MethodId) : Twins (.method m) (.method m)
  | contextMethod (m : ContextMethodId) : Twins (.contextMethod m) (.contextMethod m)
  | call (edge : CallEdge) : Twins (.call edge) (.call edge)
  | unresolved (receiver : Option ContextObjectId) {c c' : ContextId} (same : W c c')
    (site : CallSiteId) : Twins (.unresolved receiver c site) (.unresolved receiver c' site)
  | objects (var : ContextVarId) (delta : Objects) : Twins (.objects var delta) (.objects var delta)

/-- Two states that differ in the numbers of contexts only. -/
inductive Solver.Twins (s : Solver) : Solver → Prop
  | mk {elements : Elements} {events : Queue Event} (same : s.elements.Twins W elements)
    (awaited : List.Forall₂ (Event.Twins W) s.events.toList events.toList) :
    Twins s { s with elements, events }

end Twins

variable {W V : Bond}

namespace CopyTable.Twins

variable {kind copy : Entity} {t t' : CopyTable kind copy}

theorem mono (h : t.Twins W t') (grown : Subrelation W V) : t.Twins V t' :=
  List.Forall₂.imp (fun _ _ same => ⟨same.entity, grown same.context⟩) h

theorem get? (h : t.Twins W t') (i : Id copy) :
    Option.Rel (InContext.Twins W) (t.get? i) (t'.get? i) := Table.rel_get? h i

end CopyTable.Twins

namespace Elements.Twins

variable {e e' : Elements} (h : e.Twins W e')
include h

theorem context_eq {c c' : ContextId} (same : W c c') : e'.context c' = e.context c := by
  obtain ⟨l, hl, hl'⟩ := h.contexts c c' same
  rw [Elements.context, Elements.context, ContextTable.context, ContextTable.context, hl, hl']

/-- A bond pairs each id with one other id at most: distinct ids stand for distinct contexts. -/
theorem eq_iff_eq {a b c d : ContextId} (ab : W a b) (cd : W c d) : a = c ↔ b = d := by
  obtain ⟨l, ha, hb⟩ := h.contexts a b ab
  obtain ⟨k, hc, hd⟩ := h.contexts c d cd
  constructor
  · rintro rfl
    cases ha.symm.trans hc
    exact Table.id_eq_of_key_eq hb hd rfl
  · rintro rfl
    cases hb.symm.trans hd
    exact Table.id_eq_of_key_eq ha hc rfl

/-- An entity in contexts that correspond gets the same id. -/
theorem intern_copy {kind copy : Entity} {t t' : CopyTable kind copy} (twins : t.Twins W t')
    {c c' : ContextId} (same : W c c') (i : Id kind) :
    (t'.intern c' i).1 = (t.intern c i).1 ∧ (t.intern c i).2.Twins W (t'.intern c' i).2 := by
  have unique (a b : InContext kind) (ab : a.Twins W b) : a = ⟨c, i⟩ ↔ b = ⟨c', i⟩ := by
    obtain ⟨a, j⟩ := a
    obtain ⟨b, j'⟩ := b
    obtain ⟨rfl, bond⟩ := ab
    simp only [InContext.mk.injEq, h.eq_iff_eq bond same]
  have interned := Table.intern_rel (x := ⟨c, i⟩) (y := ⟨c', i⟩) twins ⟨rfl, same⟩ unique
  rw [(t.intern_eq c i).1, (t'.intern_eq c' i).1, CopyTable.Twins, (t.intern_eq c i).2,
    (t'.intern_eq c' i).2]
  exact interned

/-- A context may be new to one of the states and known to the other one. -/
theorem internContext (l : Context) : ∃ V, Subrelation W V ∧
    (e.internContext l).2.Twins V (e'.internContext l).2 ∧
    V (e.internContext l).1 (e'.internContext l).1 := by
  let f := (e.internContext l).2
  let f' := (e'.internContext l).2
  let V : Bond := fun c c' => ∃ k, f.contexts.get? c = some k ∧ f'.contexts.get? c' = some k
  have grown : Subrelation W V := by
    intro c c' same
    obtain ⟨k, hc, hc'⟩ := h.contexts c c' same
    exact ⟨k, within_internContext.contexts c k hc, within_internContext.contexts c' k hc'⟩
  refine ⟨V, grown, ?_, l, ContextTable.get?_intern, ContextTable.get?_intern⟩
  exact {
    contexts := fun _ _ => id
    empty := grown h.empty
    heap := h.heap
    vars := h.vars.mono grown
    objects := h.objects.mono grown
    methods := h.methods.mono grown
    sites := h.sites.mono grown }

theorem settle {choice choice' : Selection} (same : choice.Twins W choice') : ∃ V, Subrelation W V ∧
    (e.settle choice).2.Twins V (e'.settle choice').2 ∧
    V (e.settle choice).1 (e'.settle choice').1 := by
  cases same with
  | known same => exact ⟨W, id, h, same⟩
  | built context => exact h.internContext context

/-! Meanings are the same: those of contexts that correspond, and those of all other ids. -/

theorem situation?_eq {c c' : ContextId} (same : W c c') : e'.situation? c' = e.situation? c := by
  obtain ⟨l, hl, hl'⟩ := h.contexts c c' same
  have marker : e'.marker? = e.marker? := by
    funext x
    cases x with
    | object o => rw [marker?, marker?, h.heap]
    | callSite | type => rfl
  rw [situation?, situation?, hl, hl', marker]

theorem copy?_eq {kind copy : Entity} {t t' : CopyTable kind copy} (twins : t.Twins W t') :
    e'.copy? t' = e.copy? t := by
  funext i
  have same := twins.get? i
  rw [copy?, copy?]
  generalize t.get? i = a at same ⊢
  generalize t'.get? i = b at same ⊢
  cases same with
  | none => rfl
  | some same =>
    change (e'.situation? _).map _ = (e.situation? _).map _
    rw [h.situation?_eq same.context, same.entity]

theorem value?_eq : e'.value? = e.value? := by
  funext o
  rw [value?, value?, h.copy?_eq h.objects, h.heap]

theorem place?_eq : e'.place? = e.place? := by
  funext p
  cases p with
  | var v => rw [place?, place?, h.copy?_eq h.vars]
  | field | array => rw [place?, place?, h.value?_eq]
  | static => rfl

theorem via?_eq : e'.via? = e.via? := by
  funext kind
  cases kind with
  | extension => rw [via?, via?, h.copy?_eq h.sites]
  | static | special | virtual | interface => rfl

theorem object?_eq (o : ContextObjectId) : e'.object? o = e.object? o := by
  have same := h.objects.get? o
  rw [object?, object?, h.heap]
  generalize e.objects.get? o = a at same ⊢
  generalize e'.objects.get? o = b at same ⊢
  cases same with
  | none => rfl
  | some same =>
    change e.heap.get? _ = e.heap.get? _
    rw [same.entity]

theorem objectType?_eq (o : ContextObjectId) : e'.objectType? o = e.objectType? o := by
  rw [objectType?, objectType?, h.object?_eq]

end Elements.Twins

theorem Event.Twins.mono {x y : Event} (same : x.Twins W y) (grown : Subrelation W V) :
    x.Twins V y := by
  cases same with
  | unresolved receiver same site => exact .unresolved receiver (grown same) site
  | method m => exact .method m
  | contextMethod m => exact .contextMethod m
  | call edge => exact .call edge
  | objects var delta => exact .objects var delta

end PointsTo
