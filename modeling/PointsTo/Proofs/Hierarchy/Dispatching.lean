import PointsTo.Proofs.Hierarchy.Loading

/-!
The method that a call on a value is dispatched to: that of the nearest class which implements it,
and else that of an interface. Super interfaces are declared first, and the interface that was
declared first wins, so a default method never gives way to one that overrides it.
-/
namespace PointsTo

open Relation

/-! ### Declared methods -/

theorem Roster.mem_withIds {kind : Entity} {α : Type} {r : Roster kind α} {i : Id kind} {a : α} :
    (i, a) ∈ r.withIds ↔ r[i]? = some a := by
  have at_position (n : Nat) (h : n < r.size) : r.ids[n]? = some ⟨n⟩ := by
    simp [ids, Id.firsts, List.getElem?_range h]
  have entry : r[i]? = r.toList[i.index]? := Array.getElem?_toList.symm
  rw [withIds, List.mem_iff_getElem?, entry]
  simp only [List.getElem?_zip_eq_some]
  constructor
  · rintro ⟨n, hi, ha⟩
    have lt : n < r.size := by
      simpa [toList, size] using (List.getElem?_eq_some_iff.1 ha).1
    cases (at_position n lt).symm.trans hi
    exact ha
  · intro ha
    have lt : i.index < r.size := by
      simpa [toList, size] using (List.getElem?_eq_some_iff.1 ha).1
    exact ⟨i.index, at_position _ lt, ha⟩

namespace Catalog

variable {c : Catalog} {r : MethodRef} {m : MethodId} {d : MethodDecl}

/-- The index of declarations gives the first method of a reference. -/
theorem getElem?_declarationIndex_eq : c.declarationIndex[r]? =
    (c.methods.withIds.find? fun pair => pair.2.ref = r).map Prod.fst := by
  have run (l : List (MethodId × MethodDecl)) (index : Index MethodRef MethodId) :
      (l.foldl (fun index (id, m) => index.insertIfNew m.ref id) index)[r]? =
        index[r]?.or ((l.find? fun pair => pair.2.ref = r).map Prod.fst) := by
    induction l generalizing index with
    | nil => simp
    | cons pair l ih =>
      rw [List.foldl_cons, ih, Std.TreeMap.getElem?_insertIfNew, List.find?_cons]
      by_cases same : pair.2.ref = r
      · subst same
        cases old : index[pair.2.ref]? with
        | none =>
          have new : pair.2.ref ∉ index := fun mem => by
            rw [Std.TreeMap.mem_iff_isSome_getElem?, old] at mem
            cases mem
          simp [new]
        | some m =>
          have mem : pair.2.ref ∈ index := by
            rw [Std.TreeMap.mem_iff_isSome_getElem?, old]
            rfl
          simp [mem]
      · simp [same]
  exact (run c.methods.withIds ∅).trans (by simp)

/-- Signatures that occur again are noted. -/
theorem nodup_of_signatureIndex {texts : List String} (length : texts.length = c.methods.size)
    (none : (c.signatureIndex texts).2 = []) : texts.Nodup := by
  have run {note : Index String MethodId × List String → MethodId × String →
        Index String MethodId × List String}
      (notes : ∀ index repeated id text, note (index, repeated) (id, text) =
        (index.insert text id, if index.contains text then repeated ++ [text] else repeated))
      (l : List (MethodId × String)) (index : Index String MethodId) (repeated : List String)
      (none : (l.foldl note (index, repeated)).2 = []) :
      repeated = [] ∧ (l.map Prod.snd).Nodup ∧ ∀ text ∈ l.map Prod.snd, text ∉ index := by
    induction l generalizing index repeated with
    | nil => exact ⟨none, .nil, by simp⟩
    | cons pair l ih =>
      rw [List.foldl_cons, notes] at none
      obtain ⟨before, apart, fresh⟩ := ih _ _ none
      have new : pair.2 ∉ index := fun mem => by simp [Std.TreeMap.contains_iff_mem.2 mem] at before
      refine ⟨?_, ?_, ?_⟩
      · simpa [Std.TreeMap.contains_iff_mem, new] using before
      · refine List.nodup_cons.2 ⟨fun mem => fresh _ mem ?_, apart⟩
        simp
      · refine List.forall_mem_cons.2 ⟨new, fun text mem old => fresh text mem ?_⟩
        simp [old]
  have apart := (run (fun _ _ _ _ => rfl) _ _ _ none).2.1
  rwa [List.map_snd_zip] at apart
  simp [Roster.ids, Id.firsts, length]

end Catalog

/-- The signatures of an accepted program are distinct, and they are indexed. -/
theorem Builder.signatures_of_build {b : Builder} {p : Program} (built : b.build = .ok p) :
    ∃ texts, (p.methods.toList.mapM fun m => p.refSignature? m.ref) = some texts ∧ texts.Nodup ∧
      p.signatures = (p.signatureIndex texts).1 := by
  have same := (build_eq_ok built).1
  unfold build at built
  split at built
  next => cases built
  next texts found =>
    split at built
    next none =>
      have none := (List.append_eq_nil_iff.1 none).2
      rw [found, Option.getD_some, List.map_eq_nil_iff] at none
      unfold signatures? at found
      split at found
      next =>
        rw [same]
        cases built
        refine ⟨texts, found, Catalog.nodup_of_signatureIndex ?_ none, rfl⟩
        rw [mapM_eq_some_iff] at found
        exact found.length_eq.symm.trans (Array.length_toList)
      next => cases found
    next => cases built

namespace Program

variable {b : Builder} {p : Program} {s t : TypeId} {m m' : MethodId} {sub : Subsignature}

/-- Accepted programs declare no method twice. -/
theorem method_unique (built : b.build = .ok p) {d d' : MethodDecl} (hd : p.methods[m]? = some d)
    (hd' : p.methods[m']? = some d') (same : d.ref = d'.ref) : m = m' := by
  obtain ⟨texts, found, apart, -⟩ := Builder.signatures_of_build built
  have spelled : (p.methods.toList.map fun d => p.refSignature? d.ref) = texts.map some := by
    rw [← List.forall₂_eq_eq_eq, List.forall₂_map_left_iff, List.forall₂_map_right_iff]
    exact mapM_eq_some_iff.1 found
  have nodup := apart.map (Option.some_injective String)
  rw [← spelled] at nodup
  have position {m : MethodId} {d : MethodDecl} (hd : p.methods[m]? = some d) :
      (p.methods.toList.map fun d => p.refSignature? d.ref)[m.index]? =
        some (p.refSignature? d.ref) := by
    have entry : p.methods.toList[m.index]? = some d := by
      rw [Roster.toList, Array.getElem?_toList]
      exact hd
    rw [List.getElem?_map, entry]
    rfl
  have inside := (List.getElem?_eq_some_iff.1 (position hd)).1
  refine Id.ext_iff.2 ((List.getElem?_inj inside nodup).1 ?_)
  rw [position hd, position hd', same]

/-- The type `t` itself declares the method `m` with a body. -/
def Implements (p : Program) (t : TypeId) (sub : Subsignature) (m : MethodId) : Prop :=
  ∃ d, p.methods[m]? = some d ∧ d.ref = ⟨t, sub⟩ ∧ d.isAbstract = false

theorem declared_iff (built : b.build = .ok p) {r : MethodRef} :
    p.declared[r]? = some m ↔ ∃ d, p.methods[m]? = some d ∧ d.ref = r := by
  rw [(complete_of_build built).declared, Catalog.getElem?_declarationIndex_eq]
  constructor
  · intro found
    obtain ⟨⟨m', d⟩, first, rfl⟩ := Option.map_eq_some_iff.1 found
    exact ⟨d, Roster.mem_withIds.1 (List.mem_of_find?_eq_some first), by
      simpa using List.find?_some first⟩
  · rintro ⟨d, hd, rfl⟩
    cases first : p.methods.withIds.find? fun pair => pair.2.ref = d.ref with
    | none =>
      have apart := List.find?_eq_none.1 first (m, d) (Roster.mem_withIds.2 hd)
      simp at apart
    | some pair =>
      have hd' := Roster.mem_withIds.1 (List.mem_of_find?_eq_some first)
      have same : pair.2.ref = d.ref := by simpa using List.find?_some first
      exact congrArg some (method_unique built hd' hd same)

theorem implemented?_iff (built : b.build = .ok p) :
    p.implemented? t sub = some m ↔ p.Implements t sub m := by
  rw [implemented?, Option.filter_eq_some_iff, declared?, declared_iff built]
  constructor
  · rintro ⟨⟨d, hd, ref⟩, concrete⟩
    rw [hd] at concrete
    exact ⟨d, hd, ref, by simpa using concrete⟩
  · rintro ⟨d, hd, ref, concrete⟩
    exact ⟨⟨d, hd, ref⟩, by simp [hd, concrete]⟩

end Program

/-! ### Selection -/

/-- The first hit in an ascending list is the one with the least id. -/
theorem findSome?_ascending {kind : Entity} {α : Type} {l : List (Id kind)} {f : Id kind → Option α}
    {a : α} (asc : Ascends (fun a b => decide (a ≤ b)) l) :
    l.findSome? f = some a ↔ ∃ i ∈ l, f i = some a ∧ ∀ j ∈ l, (f j).isSome → i ≤ j := by
  induction l with
  | nil => simp
  | cons i l ih =>
    obtain ⟨least, asc⟩ := List.pairwise_cons.1 asc
    have first (j : Id kind) (mem : j ∈ i :: l) : i ≤ j := by
      obtain rfl | mem := List.mem_cons.1 mem
      · exact Nat.le_refl _
      · exact of_decide_eq_true (least j mem).1
    rw [List.findSome?_cons]
    cases hit : f i with
    | some b =>
      constructor
      · rintro ⟨⟩
        exact ⟨i, .head _, hit, fun j mem _ => first j mem⟩
      · rintro ⟨j, mem, found, before⟩
        have same : j = i := Id.ext_iff.2 (Nat.le_antisymm
          (before i (.head _) (by simp [hit])) (first j mem))
        exact hit.symm.trans (same ▸ found)
    | none =>
      refine (ih asc).trans ⟨?_, ?_⟩
      · rintro ⟨j, mem, found, before⟩
        refine ⟨j, .tail _ mem, found, List.forall_mem_cons.2 ⟨?_, before⟩⟩
        simp [hit]
      · rintro ⟨j, mem, found, before⟩
        obtain rfl | mem := List.mem_cons.1 mem
        · cases hit.symm.trans found
        · exact ⟨j, mem, found, fun k hk => before k (.tail _ hk)⟩

namespace Program

variable {b : Builder} {p : Program} {r s t : TypeId} {m m' : MethodId} {sub : Subsignature}

/-- The interface `i` above the type `t` has the default method `m`. -/
structure Default (p : Program) (t : TypeId) (sub : Subsignature) (i : TypeId) (m : MethodId) :
    Prop where
  above : ReflTransGen p.Extends t i
  isInterface : p.isInterface i = true
  implements : p.Implements i sub m

theorem Implements.unique (h : p.Implements t sub m) (h' : p.Implements s sub m) : s = t := by
  obtain ⟨d, hd, ref, -⟩ := h
  obtain ⟨d', hd', ref', -⟩ := h'
  cases hd.symm.trans hd'
  cases ref.symm.trans ref'
  rfl

/-- Among interfaces, the default method of the one that was declared first is found. -/
theorem findSome?_interfacesOf (built : b.build = .ok p) (known : t.index < p.types.size) :
    (p.interfacesOf t).findSome? (p.implemented? · sub) = some m ↔
      ∃ i, p.Default t sub i m ∧ ∀ j m', p.Default t sub j m' → i ≤ j := by
  have mem (i : TypeId) : i ∈ p.interfacesOf t ↔
      ReflTransGen p.Extends t i ∧ p.isInterface i = true := by
    rw [interfacesOf, List.mem_filter, mem_supertypesOf built known]
  have asc : Ascends (fun a b => decide (a ≤ b)) (p.interfacesOf t) := by
    rw [interfacesOf, supertypesOf_of_build built known]
    exact Catalog.ascends_supertypes.filter _
  rw [findSome?_ascending asc]
  refine exists_congr fun i => ?_
  rw [mem, implemented?_iff built]
  constructor
  · rintro ⟨⟨above, isInterface⟩, implements, first⟩
    refine ⟨⟨above, isInterface, implements⟩, fun j m' h => first j ((mem j).2 ⟨h.1, h.2⟩) ?_⟩
    rw [(implemented?_iff built).2 h.implements]
    rfl
  · rintro ⟨h, first⟩
    refine ⟨⟨h.above, h.isInterface⟩, h.implements, fun j hj some => ?_⟩
    obtain ⟨m', found⟩ := Option.isSome_iff_exists.1 some
    exact first j m' ⟨((mem j).1 hj).1, ((mem j).1 hj).2, (implemented?_iff built).1 found⟩

/-! ### Dispatch on a class -/

section Classes

variable {shape : ClassShape} (layered : p.Layered) (nominal : p.shape? r = some shape)
  (isClass : shape.isInterface = false)
include layered nominal isClass

/-- The search goes through the chain of super classes first, then through the interfaces. -/
theorem dispatch_eq (sub : Subsignature) : ∃ found, p.Climbs (p.implemented? · sub) r found ∧
    p.dispatch r sub = (found <|> (p.interfacesOf r).findSome? (p.implemented? · sub)) := by
  obtain ⟨name, declared⟩ := Catalog.types_of_shape? nominal
  exact dispatch_climbs layered (by simp [dispatchStart?, declared, isClass]) sub

variable (built : b.build = .ok p)
include built

/-- When some class in the chain implements the method, then the nearest one is taken. -/
theorem dispatch_inherited (above : p.Inherits r s) (implements : p.Implements s sub m) :
    ∃ s' m', p.dispatch r sub = some m' ∧ p.Inherits r s' ∧ p.Implements s' sub m' ∧
      ∀ u m'', p.Inherits r u → p.Implements u sub m'' → p.Inherits s' u := by
  obtain ⟨found, climbs, dispatched⟩ := dispatch_eq layered nominal isClass sub
  cases found with
  | some m' =>
    obtain ⟨s', above, hit, first⟩ := climbs.nearest
    refine ⟨s', m', dispatched, above, (implemented?_iff built).1 hit, fun u m'' hu other => ?_⟩
    exact first u hu (by rw [(implemented?_iff built).2 other]; rfl)
  | none => cases (climbs.missed rfl above).symm.trans ((implemented?_iff built).2 implements)

/-- When no class in the chain does, then the interface that was declared first is taken. -/
theorem dispatch_default_iff (none : ∀ s m, p.Inherits r s → ¬ p.Implements s sub m) :
    p.dispatch r sub = some m ↔
      ∃ i, p.Default r sub i m ∧ ∀ j m', p.Default r sub j m' → i ≤ j := by
  obtain ⟨name, declared⟩ := Catalog.types_of_shape? nominal
  obtain ⟨found, climbs, dispatched⟩ := dispatch_eq layered nominal isClass sub
  cases found with
  | some m' =>
    obtain ⟨s, above, hit, -⟩ := climbs.nearest
    exact absurd ((implemented?_iff built).1 hit) (none s m' above)
  | none =>
    rw [dispatched, Option.orElse_eq_orElse, Option.orElse_eq_or, Option.none_or]
    exact findSome?_interfacesOf built (Table.lt_size declared)

/-- A method of an interface is taken only if it is a default method above the class. -/
theorem default_of_dispatch (found : p.dispatch r sub = some m) (isInterface : p.isInterface t = true)
    (implements : p.Implements t sub m) : p.Default r sub t m := by
  by_cases some : ∃ s m', p.Inherits r s ∧ p.Implements s sub m'
  · obtain ⟨s, m', above, inherited⟩ := some
    obtain ⟨s', m'', found', above', implements', -⟩ :=
      dispatch_inherited layered nominal isClass built above inherited
    cases found.symm.trans found'
    cases implements'.unique implements
    exact ⟨above'.above, isInterface, implements⟩
  · obtain ⟨i, default, -⟩ := (dispatch_default_iff layered nominal isClass built
      fun s m' above inherited => some ⟨s, m', above, inherited⟩).1 found
    cases default.implements.unique implements
    exact default

end Classes

end Program

/-- What a call on a value of the class `r` is dispatched to, in every loaded program. The nearest
class that implements the method comes first. When there is none, the default method of the
interface that was declared first is taken, which does not extend another one that has a default
method. So the interface of the method is a most specific one as long as no default method overrides
another. -/
theorem Description.dispatch_selects {d : Description} {p : Program}
    (accepted : d.assemble.result = .ok p) {r : TypeId} {shape : ClassShape}
    (nominal : p.shape? r = some shape) (isClass : shape.isInterface = false) (sub : Subsignature) :
    (∀ s m, p.Inherits r s → p.Implements s sub m → ∃ s' m', p.dispatch r sub = some m' ∧
      p.Inherits r s' ∧ p.Implements s' sub m' ∧
      ∀ u m'', p.Inherits r u → p.Implements u sub m'' → p.Inherits s' u) ∧
    ((∀ s m, p.Inherits r s → ¬ p.Implements s sub m) → ∀ m, p.dispatch r sub = some m ↔
      ∃ i, p.Default r sub i m ∧
        ∀ j m', p.Default r sub j m' → i ≤ j ∧ ¬ TransGen p.Extends i j) ∧
    ((∀ i j m m', p.Default r sub i m → p.Default r sub j m' → ¬ TransGen p.Extends j i) →
      ∀ i m, p.dispatch r sub = some m → p.isInterface i = true → p.Implements i sub m →
        ∀ j m', p.Default r sub j m' → ¬ TransGen p.Extends j i) := by
  obtain ⟨b, -, built⟩ := exists_build accepted
  have layered := layered_of_assemble accepted
  refine ⟨fun s m above implements => ?_, fun none m => ?_,
    fun apart i m found isInterface implements => ?_⟩
  · exact Program.dispatch_inherited layered nominal isClass built above implements
  · rw [Program.dispatch_default_iff layered nominal isClass built none]
    refine exists_congr fun i => and_congr_right fun _ => ⟨fun first j m' h => ?_,
      fun first j m' h => (first j m' h).1⟩
    refine ⟨first j m' h, fun below => ?_⟩
    exact Nat.lt_irrefl _ (Nat.lt_of_lt_of_le (layered.lt_of_above below) (first j m' h))
  · have default :=
      Program.default_of_dispatch layered nominal isClass built found isInterface implements
    exact fun j m' h => apart i j m m' default h

namespace Examples

def area : Description.Method := ⟨"area", [], "void", false, false, [], []⟩

/-- A class below two interfaces, of which the upper one has a default method. -/
def inherited : Description where
  classes :=
    [⟨"Circle", none, ["Round"], false, false, [], []⟩,
     ⟨"Round", none, ["Closed"], true, false, [], []⟩,
     ⟨"Closed", none, [], true, false, [], [area]⟩]
  entries := []

def inheritedProgram : Program := inherited.assemble.result.toOption.getD default

/-- The same, but the lower interface overrides the default method. -/
def overridden : Description where
  classes :=
    [⟨"Circle", none, ["Round"], false, false, [], []⟩,
     ⟨"Round", none, ["Closed"], true, false, [], [area]⟩,
     ⟨"Closed", none, [], true, false, [], [area]⟩]
  entries := []

def overriddenProgram : Program := overridden.assemble.result.toOption.getD default

/-- The subsignature of the default methods. -/
def areaSub : Subsignature := ⟨"area", [], none⟩

end Examples

open Examples in
theorem Description.dispatch_selects_inherited :
    inherited.assemble.result = .ok inheritedProgram ∧
    inheritedProgram.dispatch ⟨2⟩ areaSub = some ⟨0⟩ ∧
    ∀ j m, inheritedProgram.Default ⟨2⟩ areaSub j m → ¬ TransGen inheritedProgram.Extends j ⟨0⟩ := by
  have accepted : inherited.assemble.result = .ok inheritedProgram :=
    eq_ok_of_isOk (by decide +kernel)
  have only (i : TypeId) (m : MethodId) (h : inheritedProgram.Implements i areaSub m) : i = ⟨0⟩ := by
    have all : ∀ d ∈ inheritedProgram.methods.toList, d.ref.owner = ⟨0⟩ := by decide +kernel
    obtain ⟨d, hd, ref, -⟩ := h
    have owner := all d (Roster.mem_toList_iff.2 ⟨m, hd⟩)
    rwa [ref] at owner
  have apart (i j : TypeId) (m m' : MethodId) (h : inheritedProgram.Default ⟨2⟩ areaSub i m)
      (h' : inheritedProgram.Default ⟨2⟩ areaSub j m') :
      ¬ TransGen inheritedProgram.Extends j i := by
    rw [only i m h.implements, only j m' h'.implements]
    exact (layered_of_assemble accepted).acyclic
  have circle : inheritedProgram.shape? ⟨2⟩ = some ⟨none, [⟨1⟩], false, false⟩ := by decide +kernel
  have selects := (dispatch_selects accepted circle rfl areaSub).2.2 apart ⟨0⟩ ⟨0⟩
  have found : inheritedProgram.dispatch ⟨2⟩ areaSub = some ⟨0⟩ := by decide +kernel
  obtain ⟨b, -, built⟩ := exists_build accepted
  refine ⟨accepted, found, selects found (by decide +kernel) ?_⟩
  exact (Program.implemented?_iff built).1 (by decide +kernel)

open Examples in
/-- The default method of the upper interface is taken although the lower one overrides it. -/
theorem Description.dispatch_selects_overridden :
    overridden.assemble.result = .ok overriddenProgram ∧
    overriddenProgram.shape? ⟨2⟩ = some ⟨none, [⟨1⟩], false, false⟩ ∧
    overriddenProgram.dispatch ⟨2⟩ areaSub = some ⟨1⟩ ∧
    overriddenProgram.Default ⟨2⟩ areaSub ⟨0⟩ ⟨1⟩ ∧ overriddenProgram.Default ⟨2⟩ areaSub ⟨1⟩ ⟨0⟩ ∧
    TransGen overriddenProgram.Extends ⟨1⟩ ⟨0⟩ := by
  have lower : overriddenProgram.Extends ⟨2⟩ ⟨1⟩ := by
    rw [Catalog.Extends]
    decide +kernel
  have upper : overriddenProgram.Extends ⟨1⟩ ⟨0⟩ := by
    rw [Catalog.Extends]
    decide +kernel
  have accepted : overridden.assemble.result = .ok overriddenProgram :=
    eq_ok_of_isOk (by decide +kernel)
  obtain ⟨b, -, built⟩ := exists_build accepted
  refine ⟨accepted, by decide +kernel, by decide +kernel, ?_, ?_, .single upper⟩
  · refine ⟨.tail (.single lower) upper, by decide +kernel, ?_⟩
    exact (Program.implemented?_iff built).1 (by decide +kernel)
  · exact ⟨.single lower, by decide +kernel, (Program.implemented?_iff built).1 (by decide +kernel)⟩

end PointsTo
