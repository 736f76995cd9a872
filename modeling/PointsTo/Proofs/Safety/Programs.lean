import PointsTo.Proofs.Safety.Safe

/-!
Programs whose declarations mention declared things only: every lookup that starts from one of them
finds what it looks for.
-/
namespace PointsTo

namespace Roster

variable {kind : Entity} {α : Type} {r : Roster kind α} {i : Id kind}

theorem exists_getElem? (h : i.index < r.size) : ∃ a, r[i]? = some a :=
  ⟨_, Array.getElem?_eq_getElem h⟩

theorem lt_size {a : α} (h : r[i]? = some a) : i.index < r.size :=
  (Array.getElem?_eq_some_iff.1 h).1

end Roster

namespace Table

variable {ε κ : Type} [Coded κ] {kind : Entity} {key : ε → κ} {t : Table kind key} {i : Id kind}

theorem exists_getElem? (h : i.index < t.size) : ∃ a, t[i]? = some a :=
  ⟨_, Array.getElem?_eq_getElem h⟩

theorem lt_size {a : ε} (h : t.get? i = some a) : i.index < t.size :=
  (Array.getElem?_eq_some_iff.1 h).1

theorem lt_size_of_find? {k : κ} (h : t.find? k = some i) : i.index < t.size := by
  obtain ⟨a, ha, -⟩ := find?_eq_some_iff.1 h
  exact lt_size ha

end Table

/-- The types that a statement mentions. -/
def Statement.types : Statement → List TypeId
  | .new _ type | .cast _ _ type => [type]
  | _ => []

namespace Catalog

variable {c : Catalog}

/-- The types that a reference spells out are declared. -/
structure Spells (c : Catalog) (r : MethodRef) : Prop where
  owner : r.owner.index < c.types.size
  params : ∀ t ∈ r.sub.params, t.index < c.types.size
  result : ∀ t, r.sub.result = some t → t.index < c.types.size

/-- The types and the field of a statement are declared. -/
structure Typed (c : Catalog) (s : Statement) : Prop where
  types : ∀ t ∈ s.types, t.index < c.types.size
  field : ∀ field isStatic, Builder.accessed? s = some (field, isStatic) →
    field.index < c.fields.size

structure SealedMethod (c : Catalog) (d : MethodDecl) : Prop where
  ref : c.Spells d.ref
  body : ∀ s ∈ d.body, c.Typed s

structure SealedSite (c : Catalog) (d : CallSite) : Prop where
  container : d.container.index < c.methods.size
  target : c.Spells d.target
  handle : ∀ bootstrap handle, d.kind = .dynamic ⟨bootstrap, some handle⟩ →
    c.Spells handle.target

/-- Whatever declarations mention is declared. Which variables and call sites a method mentions is
left to `Scoped`. -/
structure Sealed (c : Catalog) : Prop where
  vars : ∀ (v : VarId) d, c.vars[v]? = some d → d.type.index < c.types.size
  methods : ∀ (m : MethodId) d, c.methods[m]? = some d → c.SealedMethod d
  sites : ∀ (s : CallSiteId) d, c.callSites[s]? = some d → c.SealedSite d
  entries : ∀ m ∈ c.entries, m.index < c.methods.size

theorem sealed_empty : ({} : Catalog).Sealed where
  vars _ _ h := by cases h
  methods _ _ h := by cases h
  sites _ _ h := by cases h
  entries _ h := absurd h List.not_mem_nil

theorem typeName?_of_lt {t : TypeId} (h : t.index < c.types.size) :
    ∃ name, c.typeName? t = some name := by
  obtain ⟨d, hd⟩ := Table.exists_getElem? h
  exact ⟨d.name, by rw [typeName?, hd]; rfl⟩

theorem Spells.refSignature? {r : MethodRef} (h : c.Spells r) :
    ∃ text, c.refSignature? r = some text := by
  obtain ⟨owner, ho⟩ := typeName?_of_lt h.owner
  obtain ⟨params, hp, -⟩ := exists_mapM fun t ht => typeName?_of_lt (h.params t ht)
  unfold Catalog.refSignature?
  rw [ho, hp]
  cases hr : r.sub.result with
  | none => exact ⟨_, rfl⟩
  | some t =>
    obtain ⟨result, hres⟩ := typeName?_of_lt (h.result t hr)
    exact ⟨_, by simp [hres]; rfl⟩

theorem Sealed.signature? (h : c.Sealed) {m : MethodId} (known : m.index < c.methods.size) :
    ∃ text, c.signature? m = some text := by
  obtain ⟨d, hd⟩ := Roster.exists_getElem? known
  obtain ⟨text, spelled⟩ := (h.methods m d hd).ref.refSignature?
  exact ⟨text, by rw [Catalog.signature?, hd]; exact spelled⟩

/-- A call site can be shown. -/
theorem Sealed.siteText? (h : c.Sealed) {s : CallSiteId} {d : CallSite}
    (hd : c.callSites[s]? = some d) : ∃ text, c.siteText? s = some text := by
  obtain ⟨text, ht⟩ := h.signature? (h.sites s d hd).container
  refine ⟨s!"{text}[{d.index}]{d.target.sub.name}", ?_⟩
  simp [Catalog.siteText?, hd, ht]

theorem Owns.lt_size {m : MethodId} {v : VarId} (h : c.Owns m v) : v.index < c.vars.size := by
  obtain ⟨d, hd, -⟩ := h
  exact Roster.lt_size hd

/-! ### Indices -/

theorem size_recordUse {uses : Roster .var VarUses} {s : Statement} :
    (c.recordUse uses s).size = uses.size := by
  have modified {base : VarId} {f : VarUses → VarUses} : (uses.modify base f).size = uses.size :=
    Array.size_modify
  cases s with
  | loadField | storeField | loadArray | storeArray => exact modified
  | invoke site =>
    rw [recordUse_invoke]
    split
    · exact modified
    · rfl
  | _ => rfl

/-- Every variable has an entry in the use index. -/
theorem size_useIndex : c.useIndex.size = c.vars.size := by
  have run (l : List Statement) (uses : Roster .var VarUses) :
      (l.foldl c.recordUse uses).size = uses.size := by
    induction l generalizing uses with
    | nil => rfl
    | cons s l ih => exact (ih _).trans size_recordUse
  rw [useIndex_eq, run]
  exact Array.size_replicate

theorem getElem?_declarationIndex {r : MethodRef} {m : MethodId}
    (h : c.declarationIndex[r]? = some m) : m.index < c.methods.size := by
  have run (l : List (MethodId × MethodDecl)) (index : Index MethodRef MethodId)
      (old : ∀ (r : MethodRef) (m : MethodId), index[r]? = some m → m.index < c.methods.size)
      (new : ∀ pair ∈ l, pair.1.index < c.methods.size)
      (h : (l.foldl (fun index (id, m) => index.insertIfNew m.ref id) index)[r]? = some m) :
      m.index < c.methods.size := by
    induction l generalizing index with
    | nil => exact old r m h
    | cons pair l ih =>
      refine ih _ (fun r m hm => ?_) (fun pair hp => new pair (by simp [hp])) h
      rw [Std.TreeMap.getElem?_insertIfNew] at hm
      split at hm
      · cases hm
        exact new pair (by simp)
      · exact old r m hm
  refine run c.methods.withIds ∅ (fun r m hm => by simp at hm) (fun pair hp => ?_) h
  exact Id.mem_firsts.1 (List.of_mem_zip hp).1

/-! ### Statements -/

theorem Sealed.contains (h : c.Sealed) {s : Statement} (hs : c.Contains s) : c.Typed s := by
  obtain ⟨m, d, hd, hs⟩ := hs
  exact (h.methods m d hd).body s hs

namespace Scoped

variable {m : MethodId} {v w : VarId} (h : c.Scoped)
include h

/-- The variables of a statement belong to one method. -/
theorem contains {s : Statement} (hs : c.Contains s) (hv : v ∈ Builder.mentioned s)
    (hw : w ∈ Builder.mentioned s) (owns : c.Owns m v) : c.Owns m w := by
  obtain ⟨n, d, hd, hs⟩ := hs
  have body := (h.methods n d hd).body s hs
  cases owns.unique (body v hv)
  exact body w hw

end Scoped

/-- What waits for a variable of a method belongs to the method. -/
structure OwnUses (c : Catalog) (m : MethodId) (u : VarUses) : Prop where
  loads : ∀ access ∈ u.loads, c.Owns m access.2 ∧ access.1.index < c.fields.size
  stores : ∀ access ∈ u.stores, c.Owns m access.2 ∧ access.1.index < c.fields.size
  arrayLoads : ∀ lhs ∈ u.arrayLoads, c.Owns m lhs
  arrayStores : ∀ rhs ∈ u.arrayStores, c.Owns m rhs
  invokes : ∀ site ∈ u.invokes, ∃ d, c.callSites[site]? = some d ∧ d.container = m

end Catalog

theorem Builder.declared_of_build {b : Builder} {p : Program} (built : b.build = .ok p) :
    p.declared = b.catalog.declarationIndex := by
  unfold build at built
  split at built
  next => cases built
  next =>
    split at built
    next => cases built; rfl
    next => cases built

namespace Program

/-- Programs that an analysis can rely on. -/
structure WellFormed (p : Program) : Prop where
  complete : p.toCatalog.Sealed
  owned : p.toCatalog.Scoped
  indexed : p.Indexed
  size_uses : p.uses.size = p.vars.size
  declared : ∀ (r : MethodRef) (m : MethodId), p.declared[r]? = some m → m.index < p.methods.size

/-- A program that is accepted inherits what holds of its declarations; its indices are in order anyway. -/
theorem WellFormed.of_build {b : Builder} {p : Program} (built : b.build = .ok p)
    (complete : b.catalog.Sealed) (owned : b.catalog.Scoped) : p.WellFormed := by
  obtain ⟨same, uses, -⟩ := Builder.build_eq_ok built
  exact {
    complete := same ▸ complete
    owned := same ▸ owned
    indexed := indexed_of_build built
    size_uses := by rw [uses, same, Catalog.size_useIndex]
    declared := by
      rw [Builder.declared_of_build built, same]
      exact fun r m => Catalog.getElem?_declarationIndex }

namespace WellFormed

variable {p : Program} (h : p.WellFormed)
include h

theorem uses {v : VarId} (hv : v.index < p.vars.size) : ∃ u, p.uses[v]? = some u :=
  Roster.exists_getElem? (h.size_uses ▸ hv)

theorem ownUses {m : MethodId} {v : VarId} {u : VarUses} (owns : p.Owns m v)
    (hu : p.uses[v]? = some u) : p.OwnUses m u where
  loads := fun (field, lhs) mem => by
    have contains := (h.indexed.loads v u hu field lhs).1 mem
    exact ⟨h.owned.contains contains (v := v) (by simp [Builder.mentioned])
      (by simp [Builder.mentioned]) owns, (h.complete.contains contains).field _ _ rfl⟩
  stores := fun (field, rhs) mem => by
    have contains := (h.indexed.stores v u hu field rhs).1 mem
    exact ⟨h.owned.contains contains (v := v) (by simp [Builder.mentioned])
      (by simp [Builder.mentioned]) owns, (h.complete.contains contains).field _ _ rfl⟩
  arrayLoads lhs mem := h.owned.contains ((h.indexed.arrayLoads v u hu lhs).1 mem) (v := v)
    (by simp [Builder.mentioned]) (by simp [Builder.mentioned]) owns
  arrayStores rhs mem := h.owned.contains ((h.indexed.arrayStores v u hu rhs).1 mem) (v := v)
    (by simp [Builder.mentioned]) (by simp [Builder.mentioned]) owns
  invokes site mem := by
    obtain ⟨⟨n, d, hd, contains⟩, base⟩ := (h.indexed.invokes v u hu site).1 mem
    cases owns.unique (h.owned.owns_base hd contains base)
    exact (h.owned.methods m d hd).invokes site contains

/-- The methods that references name are declared. -/
theorem resolve {r : MethodRef} {m : MethodId} (hm : p.resolve r = some m) :
    ∃ d, p.methods[m]? = some d := by
  refine Roster.exists_getElem? ?_
  rw [Program.resolve, Option.orElse_eq_orElse, Option.orElse_eq_or, Option.or_eq_some_iff] at hm
  obtain hm | ⟨-, hm⟩ := hm
  · obtain ⟨t, -, hm⟩ := List.exists_of_findSome?_eq_some hm
    exact h.declared _ m hm
  · obtain ⟨t, -, hm⟩ := List.exists_of_findSome?_eq_some hm
    exact h.declared _ m hm

/-- The methods that calls are dispatched to are declared. -/
theorem dispatch {type : TypeId} {sub : Subsignature} {m : MethodId}
    (hm : p.dispatch type sub = some m) : ∃ d, p.methods[m]? = some d := by
  have implemented {l : List TypeId} (hm : l.findSome? (p.implemented? · sub) = some m) :
      m.index < p.methods.size := by
    obtain ⟨t, -, hm⟩ := List.exists_of_findSome?_eq_some hm
    exact h.declared _ m (Option.eq_some_of_filter_eq_some hm)
  refine Roster.exists_getElem? ?_
  obtain ⟨start, -, hm⟩ := Option.bind_eq_some_iff.1 hm
  rw [Option.orElse_eq_orElse, Option.orElse_eq_or, Option.or_eq_some_iff] at hm
  obtain hm | ⟨-, hm⟩ := hm
  · exact implemented hm
  · exact implemented hm

end WellFormed
end Program

end PointsTo
