import Mathlib.Data.Set.Card
import Mathlib.Data.Set.Finite.Lattice
import Mathlib.Data.Set.Finite.List
import PointsTo.Proofs.Safety.Runs

/-!
How many ids an analysis of a program can give. The objects that it makes are told apart by their
origins and types, contexts are cut to a limit, and so every table has a bound that depends on the
program and the limit only.
-/
namespace PointsTo

open Set

/-! ### Finite sets of keys -/

theorem Id.finite_lt (kind : Entity) (n : Nat) : {i : Id kind | i.index < n}.Finite :=
  (finite_lt_nat n).preimage fun _ _ _ _ same => Id.ext_iff.2 same

/-- There are finitely many contexts under a limit, when the elements have numbers below a bound. -/
theorem Context.finite_lt (limit n : Nat) :
    {l : Context | l.length ≤ limit ∧ ∀ x ∈ l, x.numbers.2 < n}.Finite := by
  have elements : {x : ContextElement | x.numbers.2 < n}.Finite := by
    refine (((finite_lt_nat 3).prod (finite_lt_nat n)).preimage
      fun _ _ _ _ => ContextElement.numbers_injective).subset fun x hx => ⟨?_, hx⟩
    cases x <;> simp [ContextElement.numbers]
  have := elements.to_subtype
  refine ((List.finite_length_le {x : ContextElement | x.numbers.2 < n} limit).image
    (List.map Subtype.val)).subset ?_
  rintro l ⟨short, small⟩
  lift l to List {x : ContextElement | x.numbers.2 < n} using small
  exact ⟨l, (List.length_map _).symm.trans_le short, rfl⟩

theorem Pointer.finite_lt (n : Nat) :
    {q : Pointer | q.numbers.2.1 < n ∧ q.numbers.2.2 < n}.Finite := by
  refine (((finite_lt_nat 4).prod ((finite_lt_nat n).prod (finite_lt_nat n))).preimage
    fun _ _ _ _ => Pointer.numbers_injective).subset fun q hq => ⟨?_, hq⟩
  cases q <;> simp [Pointer.numbers]

namespace Catalog

variable (p : Catalog)

theorem finite_locates : {o | p.Locates o}.Finite := by
  have statements (m : MethodId) : {i | ∃ d, p.methods[m]? = some d ∧ i < d.body.size}.Finite := by
    cases p.methods[m]? with
    | none => simp
    | some d => simpa using finite_lt_nat d.body.size
  refine (((Id.finite_lt _ p.methods.size).biUnion fun m _ =>
    (statements m).image (Origin.allocation m)).union
    (((List.finite_toSet mockDescriptions).prod (Id.finite_lt _ p.callSites.size)).image
      fun mock => Origin.mock mock.1 mock.2)).subset fun o located => ?_
  cases o with
  | allocation m i =>
    obtain ⟨d, hd, hi⟩ := located
    exact .inl (mem_biUnion (x := m) (Array.getElem?_eq_some_iff.1 hd).1 ⟨i, ⟨d, hd, hi⟩, rfl⟩)
  | mock description site => exact .inr ⟨(description, site), located, rfl⟩

/-- What tells the objects of a program apart is one of finitely many things. -/
theorem finite_identities : (AbstractObject.identity '' {a | p.Makes a}).Finite := by
  refine (p.finite_locates.prod (((Id.finite_lt _ p.types.size).image some).insert none)).subset ?_
  rintro _ ⟨a, makes, rfl⟩
  unfold AbstractObject.identity
  split
  · exact ⟨makes.origin, .inl rfl⟩
  · exact ⟨makes.origin, .inr ⟨a.type, makes.type, rfl⟩⟩

end Catalog

/-! ### Sizes of tables -/

namespace Table

variable {ε κ : Type} [Coded κ] {kind : Entity} {key : ε → κ} {t : Table kind key}

/-- A table whose entries are told apart by what comes from a finite set has no more entries than the
set. -/
theorem size_le_ncard {α : Type} {S : Set α} (finite : S.Finite) {f : ε → α}
    (apart : ∀ i j a b, t.get? i = some a → t.get? j = some b → f a = f b → key a = key b)
    (within : ∀ i a, t.get? i = some a → f a ∈ S) : t.size ≤ S.ncard := by
  have entry (i : Fin t.size) : t.get? ⟨i⟩ = some t.entries[i.val] := Array.getElem?_eq_getElem i.2
  calc
    t.size = (univ : Set (Fin t.size)).ncard := by rw [ncard_univ, Nat.card_fin]
    _ ≤ S.ncard := ncard_le_ncard_of_injOn (fun i => f t.entries[i.val])
      (fun i _ => within _ _ (entry i))
      (fun i _ j _ same => Fin.ext (Id.ext_iff.1 (id_eq_of_key_eq (entry i) (entry j)
        (apart _ _ _ _ (entry i) (entry j) same)))) finite

end Table

namespace Elements

variable (p : Catalog) (limit : Nat)

theorem Reads.number_lt {e : Elements} {p : Catalog} {x : ContextElement} (h : e.Reads p x) :
    x.numbers.2 < max p.callSites.size (max e.heap.size p.types.size) := by
  cases x with
  | callSite s => exact lt_max_of_lt_left h
  | object o =>
    obtain ⟨a, ha⟩ := h
    exact lt_max_of_lt_right (lt_max_of_lt_left (Table.lt_size ha))
  | type t => exact lt_max_of_lt_right (lt_max_of_lt_right h)

/-- The number of objects is bounded. -/
theorem exists_heap_size_le : ∃ n, ∀ e : Elements, e.Ranged p limit → e.heap.size ≤ n :=
  ⟨_, fun _ h => Table.size_le_ncard p.finite_identities (fun _ _ _ _ _ _ => id)
    fun o a ha => ⟨a, h.heap o a ha, rfl⟩⟩

/-- The contexts that come up are among finitely many ones. -/
theorem exists_finite_contexts :
    ∃ all : Set Context, all.Finite ∧ ∀ e : Elements, e.Ranged p limit →
      ∀ l, e.Regular p limit l → l ∈ all := by
  obtain ⟨n, few⟩ := exists_heap_size_le p limit
  refine ⟨_, Context.finite_lt limit (max p.callSites.size (max n p.types.size)),
    fun e h l regular => ⟨regular.length, fun x hx => ?_⟩⟩
  refine (regular.reads x hx).number_lt.trans_le ?_
  exact max_le_max_left _ (max_le_max_right _ (few e h))

/-- The numbers of entities in contexts are bounded: such an entity is told apart from others by the
context itself, whatever its id. -/
theorem exists_copies_size_le :
    ∃ n, ∀ e : Elements, e.Ranged p limit →
      e.vars.size ≤ n ∧ e.objects.size ≤ n ∧ e.methods.size ≤ n ∧ e.sites.size ≤ n := by
  obtain ⟨heap, few⟩ := exists_heap_size_le p limit
  obtain ⟨all, finite, among⟩ := exists_finite_contexts p limit
  have copies (kind copy : Entity) (entities : Nat) : ∃ n, ∀ (e : Elements)
      (t : CopyTable kind copy), e.Ranged p limit → (∀ i pair, t.get? i = some pair →
        e.Knows p limit pair.context ∧ pair.entity.index < entities) → t.size ≤ n := by
    refine ⟨_, fun e t h pairs => t.table.size_le_ncard (finite.prod (Id.finite_lt kind entities))
      (f := fun pair => (e.context pair.context, pair.entity)) (fun i j a b ha hb same => ?_)
      fun i pair hi => ?_⟩
    · obtain ⟨sameContext, sameEntity⟩ := Prod.mk.inj same
      have sameId : a.context = b.context :=
        Table.id_eq_of_key_eq (pairs i a ha).1.get? (pairs j b hb).1.get? sameContext
      cases a
      exact congrArg₂ InContext.mk sameId sameEntity
    · obtain ⟨known, small⟩ := pairs i pair hi
      exact ⟨among e h _ known.regular, small⟩
  obtain ⟨vars, hvars⟩ := copies .var .contextVar p.vars.size
  obtain ⟨objects, hobjects⟩ := copies .object .contextObject heap
  obtain ⟨methods, hmethods⟩ := copies .method .contextMethod p.methods.size
  obtain ⟨sites, hsites⟩ := copies .callSite .contextSite p.callSites.size
  refine ⟨vars + objects + methods + sites, fun e h => ?_⟩
  have hobjects := hobjects e e.objects h fun o pair ho => by
    obtain ⟨known, a, ha⟩ := h.objects o pair ho
    exact ⟨known, (Table.lt_size ha).trans_le (few e h)⟩
  have := hvars e e.vars h h.vars
  have := hmethods e e.methods h h.methods
  have := hsites e e.sites h h.sites
  omega

end Elements

/-- The number of nodes is bounded. -/
theorem exists_nodes_size_le (p : Program) (sel : Selector) :
    ∃ n, ∀ s, Grounded p sel none s → s.flows.nodes.size ≤ n := by
  obtain ⟨n, copies⟩ := Elements.exists_copies_size_le p.toCatalog sel.limit
  refine ⟨_, fun s hs => Table.size_le_ncard (Pointer.finite_lt (max n p.fields.size + 1))
    (fun _ _ _ _ _ _ => id) fun i q hq => ?_⟩
  obtain ⟨vars, objects, -, -⟩ := copies s.elements hs.elements
  have below {m : Nat} (h : m < n) : m < max n p.fields.size + 1 :=
    Nat.lt_succ_of_lt (lt_max_of_lt_left h)
  have names := hs.nodes i q hq
  cases q with
  | var x =>
    obtain ⟨pair, hx⟩ := names
    exact ⟨below ((Table.lt_size hx).trans_le vars), Nat.succ_pos _⟩
  | field o f =>
    obtain ⟨⟨pair, ho⟩, hf⟩ := names
    exact ⟨below ((Table.lt_size ho).trans_le objects),
      Nat.lt_succ_of_lt (lt_max_of_lt_right hf)⟩
  | array o =>
    obtain ⟨pair, ho⟩ := names
    exact ⟨below ((Table.lt_size ho).trans_le objects), Nat.succ_pos _⟩
  | static f => exact ⟨Nat.lt_succ_of_lt (lt_max_of_lt_right names), Nat.succ_pos _⟩

end PointsTo
