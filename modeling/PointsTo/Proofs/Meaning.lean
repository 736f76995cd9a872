import Mathlib.Data.List.Forall2
import PointsTo.Flow.Graph
import PointsTo.Proofs.Tables

/-!
What ids stand for. Ids depend on the order in which an analysis meets things; their meanings are
built from the program alone, and distinct ids have distinct meanings.
-/
namespace PointsTo

/-- A context element, an object being known by its origin. -/
inductive Marker
  | callSite (site : CallSiteId)
  | object (object : AbstractObject)
  | type (type : TypeId)
  deriving DecidableEq, Repr

/-- The meaning of a context. -/
abbrev Situation := List Marker

/-- The meaning of an object in a context. -/
structure Value where
  context : Situation
  object : AbstractObject
  deriving DecidableEq, Repr

/-- The meaning of a pointer. -/
inductive Place
  | var (context : Situation) (v : VarId)
  | field (object : Value) (field : FieldId)
  | array (object : Value)
  | static (field : FieldId)
  deriving DecidableEq, Repr

namespace Elements

variable (e : Elements)

def marker? : ContextElement → Option Marker
  | .callSite s => some (.callSite s)
  | .object o => (e.heap.get? o).map .object
  | .type t => some (.type t)

def situation? (c : ContextId) : Option Situation :=
  (e.contexts.get? c).bind fun c => c.mapM e.marker?

/-- The meaning of an entity in a context. -/
def copy? {kind copy : Entity} (t : CopyTable kind copy) (i : Id copy) :
    Option (Situation × Id kind) :=
  (t.get? i).bind fun pair => (e.situation? pair.context).map (·, pair.entity)

def value? (o : ContextObjectId) : Option Value :=
  (e.copy? e.objects o).bind fun pair => (e.heap.get? pair.2).map (⟨pair.1, ·⟩)

def place? : Pointer → Option Place
  | .var v => (e.copy? e.vars v).map fun pair => .var pair.1 pair.2
  | .field o f => (e.value? o).map (.field · f)
  | .array o => (e.value? o).map .array
  | .static f => some (.static f)

end Elements

theorem mapM_eq_some_iff {α β : Type} {f : α → Option β} {as : List α} {bs : List β} :
    as.mapM f = some bs ↔ List.Forall₂ (fun a b => f a = some b) as bs := by
  induction as generalizing bs with
  | nil => simp [eq_comm]
  | cons a as ih =>
    simp only [List.mapM_cons, Option.bind_eq_bind, Option.bind_eq_some_iff,
      List.forall₂_cons_left_iff]
    constructor
    · rintro ⟨b, hb, bs', hbs, eq⟩
      exact ⟨b, bs', hb, ih.1 hbs, (Option.some.inj eq).symm⟩
    · rintro ⟨b, bs', hb, hbs, rfl⟩
      exact ⟨b, hb, bs', ih.2 hbs, rfl⟩

namespace Elements

/-! ### Meanings last -/

section Lasting

variable {e f : Elements} (h : e.Within f)
include h

theorem Within.marker? {x : ContextElement} {m : Marker} (hm : e.marker? x = some m) :
    f.marker? x = some m := by
  cases x with
  | callSite s => exact hm
  | type t => exact hm
  | object o =>
    obtain ⟨a, ha, rfl⟩ := Option.map_eq_some_iff.1 hm
    exact Option.map_eq_some_iff.2 ⟨a, h.heap o a ha, rfl⟩

theorem Within.situation? {c : ContextId} {σ : Situation} (hc : e.situation? c = some σ) :
    f.situation? c = some σ := by
  obtain ⟨l, hl, hσ⟩ := Option.bind_eq_some_iff.1 hc
  refine Option.bind_eq_some_iff.2 ⟨l, h.contexts c l hl, ?_⟩
  rw [mapM_eq_some_iff] at hσ ⊢
  exact hσ.imp fun x m => h.marker?

theorem Within.copy? {kind copy : Entity} {t u : CopyTable kind copy} (tu : t.table.Within u.table)
    {i : Id copy} {pair : Situation × Id kind} (hi : e.copy? t i = some pair) :
    f.copy? u i = some pair := by
  obtain ⟨a, ha, hp⟩ := Option.bind_eq_some_iff.1 hi
  obtain ⟨σ, hσ, rfl⟩ := Option.map_eq_some_iff.1 hp
  exact Option.bind_eq_some_iff.2 ⟨a, tu i a ha, by rw [h.situation? hσ]; rfl⟩

theorem Within.var? {v : ContextVarId} {pair : Situation × VarId}
    (hv : e.copy? e.vars v = some pair) : f.copy? f.vars v = some pair := h.copy? h.vars hv

theorem Within.method? {m : ContextMethodId} {pair : Situation × MethodId}
    (hm : e.copy? e.methods m = some pair) : f.copy? f.methods m = some pair :=
  h.copy? h.methods hm

theorem Within.site? {s : ContextSiteId} {pair : Situation × CallSiteId}
    (hs : e.copy? e.sites s = some pair) : f.copy? f.sites s = some pair := h.copy? h.sites hs

theorem Within.value? {o : ContextObjectId} {v : Value} (ho : e.value? o = some v) :
    f.value? o = some v := by
  obtain ⟨pair, hp, hv⟩ := Option.bind_eq_some_iff.1 ho
  obtain ⟨a, ha, rfl⟩ := Option.map_eq_some_iff.1 hv
  exact Option.bind_eq_some_iff.2 ⟨pair, h.copy? h.objects hp, by rw [h.heap _ a ha]; rfl⟩

theorem Within.place? {p : Pointer} {P : Place} (hp : e.place? p = some P) :
    f.place? p = some P := by
  cases p with
  | var v =>
    obtain ⟨pair, hv, rfl⟩ := Option.map_eq_some_iff.1 hp
    exact Option.map_eq_some_iff.2 ⟨pair, h.var? hv, rfl⟩
  | field o field =>
    obtain ⟨v, hv, rfl⟩ := Option.map_eq_some_iff.1 hp
    exact Option.map_eq_some_iff.2 ⟨v, h.value? hv, rfl⟩
  | array o =>
    obtain ⟨v, hv, rfl⟩ := Option.map_eq_some_iff.1 hp
    exact Option.map_eq_some_iff.2 ⟨v, h.value? hv, rfl⟩
  | static field => exact hp

end Lasting

/-! ### Meanings are distinct -/

section Distinct

variable {e : Elements}

theorem eq_of_marker? {x y : ContextElement} {m : Marker} (hx : e.marker? x = some m)
    (hy : e.marker? y = some m) : x = y := by
  cases x <;> cases y <;> simp only [marker?, Option.map_eq_some_iff, Option.some.injEq] at hx hy
  case callSite.callSite => cases hx; cases hy; rfl
  case type.type => cases hx; cases hy; rfl
  case object.object =>
    obtain ⟨a, ha, rfl⟩ := hx
    obtain ⟨b, hb, eq⟩ := hy
    cases eq
    rw [Table.id_eq_of_key_eq ha hb rfl]
  all_goals grind

/-- Contexts with the same meaning are the same. -/
theorem eq_of_markers {k l : Context} {σ : Situation} (hk : k.mapM e.marker? = some σ)
    (hl : l.mapM e.marker? = some σ) : k = l := by
  rw [mapM_eq_some_iff] at hk hl
  induction hk generalizing l with
  | nil => cases hl; rfl
  | cons hx _ ih =>
    obtain ⟨y, l, hy, rest, rfl⟩ := List.forall₂_cons_right_iff.1 hl
    rw [eq_of_marker? hx hy, ih rest]

theorem eq_of_situation? {c d : ContextId} {σ : Situation} (hc : e.situation? c = some σ)
    (hd : e.situation? d = some σ) : c = d := by
  obtain ⟨l, hl, hσ⟩ := Option.bind_eq_some_iff.1 hc
  obtain ⟨k, hk, hτ⟩ := Option.bind_eq_some_iff.1 hd
  cases eq_of_markers hσ hτ
  exact Table.id_eq_of_key_eq hl hk rfl

theorem eq_of_copy? {kind copy : Entity} {t : CopyTable kind copy} {i j : Id copy}
    {pair : Situation × Id kind} (hi : e.copy? t i = some pair) (hj : e.copy? t j = some pair) :
    i = j := by
  obtain ⟨a, ha, hp⟩ := Option.bind_eq_some_iff.1 hi
  obtain ⟨b, hb, hq⟩ := Option.bind_eq_some_iff.1 hj
  obtain ⟨σ, hσ, rfl⟩ := Option.map_eq_some_iff.1 hp
  obtain ⟨τ, hτ, eq⟩ := Option.map_eq_some_iff.1 hq
  cases a
  cases b
  cases eq
  cases eq_of_situation? hσ hτ
  exact Table.id_eq_of_key_eq ha hb rfl

theorem eq_of_value? {o p : ContextObjectId} {v : Value} (ho : e.value? o = some v)
    (hp : e.value? p = some v) : o = p := by
  obtain ⟨⟨σ, x⟩, hx, hv⟩ := Option.bind_eq_some_iff.1 ho
  obtain ⟨⟨τ, y⟩, hy, hw⟩ := Option.bind_eq_some_iff.1 hp
  obtain ⟨a, ha, rfl⟩ := Option.map_eq_some_iff.1 hv
  obtain ⟨b, hb, eq⟩ := Option.map_eq_some_iff.1 hw
  cases eq
  cases Table.id_eq_of_key_eq ha hb rfl
  exact eq_of_copy? hx hy

theorem eq_of_place? {p q : Pointer} {P : Place} (hp : e.place? p = some P)
    (hq : e.place? q = some P) : p = q := by
  cases p <;> cases q <;>
    simp only [place?, Option.map_eq_some_iff, Option.some.injEq] at hp hq
  case var.var =>
    obtain ⟨a, ha, rfl⟩ := hp
    obtain ⟨b, hb, eq⟩ := hq
    cases a
    cases b
    cases eq
    rw [eq_of_copy? ha hb]
  case field.field =>
    obtain ⟨a, ha, rfl⟩ := hp
    obtain ⟨b, hb, eq⟩ := hq
    cases eq
    rw [eq_of_value? ha hb]
  case array.array =>
    obtain ⟨a, ha, rfl⟩ := hp
    obtain ⟨b, hb, eq⟩ := hq
    cases eq
    rw [eq_of_value? ha hb]
  case static.static => grind
  all_goals grind

end Distinct

/-! ### Meanings of compound ids -/

section Compound

variable {e : Elements}

theorem copy?_eq_some_iff {kind copy : Entity} {t : CopyTable kind copy} {i : Id copy}
    {σ : Situation} {x : Id kind} :
    e.copy? t i = some (σ, x) ↔ ∃ c, t.get? i = some ⟨c, x⟩ ∧ e.situation? c = some σ := by
  simp only [copy?, Option.bind_eq_some_iff, Option.map_eq_some_iff, Prod.mk.injEq]
  constructor
  · rintro ⟨a, ha, τ, hτ, rfl, rfl⟩
    exact ⟨a.context, ha, hτ⟩
  · rintro ⟨c, hc, hσ⟩
    exact ⟨_, hc, σ, hσ, rfl, rfl⟩

theorem value?_eq_some_iff {o : ContextObjectId} {v : Value} :
    e.value? o = some v ↔ ∃ x, e.copy? e.objects o = some (v.context, x) ∧
      e.heap.get? x = some v.object := by
  simp only [value?, Option.bind_eq_some_iff, Option.map_eq_some_iff]
  constructor
  · rintro ⟨⟨σ, x⟩, hx, a, ha, rfl⟩
    exact ⟨x, hx, ha⟩
  · rintro ⟨x, hx, ha⟩
    exact ⟨_, hx, _, ha, rfl⟩

theorem place?_var {x : ContextVarId} {σ : Situation} {v : VarId}
    (h : e.copy? e.vars x = some (σ, v)) : e.place? (.var x) = some (.var σ v) := by
  rw [place?, h]
  rfl

theorem place?_field {o : ContextObjectId} {v : Value} (h : e.value? o = some v) (field : FieldId) :
    e.place? (.field o field) = some (.field v field) := by
  rw [place?, h]
  rfl

theorem place?_array {o : ContextObjectId} {v : Value} (h : e.value? o = some v) :
    e.place? (.array o) = some (.array v) := by
  rw [place?, h]
  rfl

theorem object?_of_value? {o : ContextObjectId} {v : Value} (h : e.value? o = some v) :
    e.object? o = some v.object := by
  obtain ⟨x, hx, ha⟩ := value?_eq_some_iff.1 h
  obtain ⟨c, hc, -⟩ := copy?_eq_some_iff.1 hx
  change (e.objects.get? o).bind (fun pair => e.heap.get? pair.entity) = _
  rw [hc]
  exact ha

theorem objectType?_of_value? {o : ContextObjectId} {v : Value} (h : e.value? o = some v) :
    e.objectType? o = some v.object.type := by
  rw [objectType?, object?_of_value? h]
  rfl

theorem situation?_emptyId : e.situation? ContextTable.emptyId = some [] := by
  rw [situation?, ContextTable.get?_emptyId]
  rfl

end Compound

end Elements
end PointsTo
