import Mathlib.Logic.Equiv.Basic
import PointsTo.Proofs.Scope
import PointsTo.Proofs.Translation

/-!
Programs whose methods have the same statements in another order, and whose entries may come in another
order, too. An object is known by the position of its allocation, so facts about one program are facts
about the other one once positions have been translated. A solution of the constraints stays one.
-/
namespace PointsTo

/-! ### Statements in another order -/

/-- The same method, with its statements and so the values that it returns in another order. -/
structure MethodDecl.Reorders (d d' : MethodDecl) : Prop where
  rest : { d with returns := d'.returns, body := d'.body } = d'
  returns : d.returns.Perm d'.returns
  body : d.body.toList.Perm d'.body.toList

/-- The same program, with the statements of its methods in another order and indexed in that order. -/
structure Program.Reorders (p p' : Program) : Prop where
  rest : { p with methods := p'.methods, uses := p'.uses } = p'
  methods : List.Forall₂ MethodDecl.Reorders p.methods.toList p'.methods.toList
  uses : p'.uses = p'.useIndex

/-- The same program, with the statements of its methods and its entries in another order. -/
structure Program.Rearranges (p p' : Program) : Prop where
  rest : { p with methods := p'.methods, entries := p'.entries, uses := p'.uses } = p'
  methods : List.Forall₂ MethodDecl.Reorders p.methods.toList p'.methods.toList
  entries : p.entries.Perm p'.entries
  uses : p'.uses = p'.useIndex

namespace MethodDecl

variable {d d' : MethodDecl}

instance : Decidable (d.Reorders d') :=
  decidable_of_iff ({ d with returns := d'.returns, body := d'.body } = d' ∧
    d.returns.Perm d'.returns ∧ d.body.toList.Perm d'.body.toList)
    ⟨fun ⟨rest, returns, body⟩ => ⟨rest, returns, body⟩,
      fun ⟨rest, returns, body⟩ => ⟨rest, returns, body⟩⟩

namespace Reorders

variable (h : d.Reorders d')
include h

theorem symm : d'.Reorders d where
  rest := by rw [← h.rest]
  returns := h.returns.symm
  body := h.body.symm

theorem ref : d'.ref = d.ref := by rw [← h.rest]

theorem isAbstract : d'.isAbstract = d.isAbstract := by rw [← h.rest]

theorem receiver : d'.receiver = d.receiver := by rw [← h.rest]

theorem params : d'.params = d.params := by rw [← h.rest]

theorem mem_body {s : Statement} (mem : s ∈ d.body) : s ∈ d'.body :=
  Array.mem_toList_iff.1 (h.body.mem_iff.1 (Array.mem_toList_iff.2 mem))

end Reorders

end MethodDecl

namespace Roster

variable {kind : Entity} {α β : Type} {i : Id kind}

theorem getElem?_toList {r : Roster kind α} : r.toList[i.index]? = r[i]? := Array.getElem?_toList

theorem exists_getElem?_of_forall₂ {R : α → β → Prop} {r : Roster kind α} {r' : Roster kind β}
    (h : List.Forall₂ R r.toList r'.toList) {a : α} (ha : r[i]? = some a) :
    ∃ b, r'[i]? = some b ∧ R a b := by
  rw [← getElem?_toList, List.getElem?_eq_some_iff] at ha
  obtain ⟨lt, rfl⟩ := ha
  have lt' : i.index < r'.toList.length := h.length_eq ▸ lt
  exact ⟨_, getElem?_toList.symm.trans (List.getElem?_eq_getElem lt'), h.get lt lt'⟩

end Roster

/-! ### What depends on the types only -/

namespace Catalog

variable {c c' : Catalog}

section Types

variable (types : c'.types = c.types)
include types

theorem shape?_congr {t : TypeId} : c'.shape? t = c.shape? t := by
  rw [shape?, shape?, types]

theorem superclasses_congr {t : TypeId} : c'.superclasses t = c.superclasses t := by
  have within (limit : Nat) (t : TypeId) :
      c'.superclassesWithin limit t = c.superclassesWithin limit t := by
    induction limit generalizing t with
    | zero => rfl
    | succ limit ih => simp only [superclassesWithin, shape?_congr types, ih]
  rw [superclasses, types, within]
  rfl

theorem supertypes_congr {t : TypeId} : c'.supertypes t = c.supertypes t := by
  have direct : c'.directSupertypes = c.directSupertypes := by
    funext t
    rw [directSupertypes, directSupertypes, shape?_congr types]
  have wider : c'.widen = c.widen := by
    funext ts
    rw [widen, widen, direct]
  have within (rounds : Nat) (ts : List TypeId) :
      c'.widenWithin rounds ts = c.widenWithin rounds ts := by
    induction rounds generalizing ts with
    | zero => rfl
    | succ rounds ih => rw [widenWithin, widenWithin, wider, ih]
  rw [supertypes, types, within]
  rfl

end Types

section References

variable (refs : c'.methods.toList.map MethodDecl.ref = c.methods.toList.map MethodDecl.ref)
include refs

theorem methods_ids_congr : c'.methods.ids = c.methods.ids := by
  have length := congrArg List.length refs
  simp only [List.length_map] at length
  exact congrArg Id.firsts length

theorem declarationIndex_congr : c'.declarationIndex = c.declarationIndex := by
  have spelled (c : Catalog) : c.declarationIndex =
      (c.methods.ids.zip (c.methods.toList.map MethodDecl.ref)).foldl
        (fun index (id, ref) => index.insertIfNew ref id) ∅ := by
    rw [List.zip_map_right, List.foldl_map]
    rfl
  rw [spelled, spelled, refs, methods_ids_congr refs]

theorem signatures_congr (types : c'.types = c.types) :
    (c'.methods.toList.mapM fun m => c'.refSignature? m.ref) =
      c.methods.toList.mapM fun m => c.refSignature? m.ref := by
  have spelled (c : Catalog) : (c.methods.toList.mapM fun m => c.refSignature? m.ref) =
      (c.methods.toList.map MethodDecl.ref).mapM c.refSignature? := by
    rw [List.mapM_map]
    rfl
  have named : c'.typeName? = c.typeName? := by
    funext t
    rw [typeName?, typeName?, types]
  have signature : c'.refSignature? = c.refSignature? := by
    funext r
    rw [refSignature?, refSignature?, named]
  rw [spelled, spelled, refs, signature]

end References

end Catalog

namespace Program.Rearranges

variable {p p' : Program} (h : p.Rearranges p')
include h

theorem symm (uses : p.uses = p.useIndex) : p'.Rearranges p where
  rest := by rw [← h.rest]
  methods := (h.methods.imp fun _ _ => MethodDecl.Reorders.symm).flip
  entries := h.entries.symm
  uses := uses

theorem method? {m : MethodId} {d : MethodDecl} (hd : p.methods[m]? = some d) :
    ∃ d', p'.methods[m]? = some d' ∧ d.Reorders d' :=
  Roster.exists_getElem?_of_forall₂ h.methods hd

/-- Whatever does not depend on the statements of methods is the same. -/
theorem map_methods {α : Type} {f : MethodDecl → α} (same : ∀ d d', d.Reorders d' → f d' = f d) :
    p'.methods.toList.map f = p.methods.toList.map f := by
  rw [← List.forall₂_eq_eq_eq, List.forall₂_map_left_iff, List.forall₂_map_right_iff]
  exact (h.methods.imp fun d d' reorders => (same d d' reorders)).flip

theorem map_method? {α : Type} {f : MethodDecl → α} (same : ∀ d d', d.Reorders d' → f d' = f d)
    (m : MethodId) : (p'.methods[m]?).map f = (p.methods[m]?).map f := by
  rw [← Roster.getElem?_toList, ← Roster.getElem?_toList, ← List.getElem?_map, ← List.getElem?_map,
    h.map_methods same]

/-! ### What stays the same -/

theorem vars : p'.vars = p.vars := by rw [← h.rest]

theorem callSites : p'.callSites = p.callSites := by rw [← h.rest]

theorem types : p'.types = p.types := by rw [← h.rest]

theorem supertypesOf : p'.supertypesOf = p.supertypesOf := by
  rw [← h.rest]
  rfl

theorem isReference : p'.isReference = p.isReference := by
  rw [← h.rest]
  rfl

theorem isSubtypeWithin {depth : Nat} {a b : TypeId} :
    p'.isSubtypeWithin depth a b = p.isSubtypeWithin depth a b := by
  induction depth generalizing a b with
  | zero => rw [Program.isSubtypeWithin, Program.isSubtypeWithin, h.types, h.supertypesOf, h.isReference]
  | succ depth ih =>
    rw [Program.isSubtypeWithin, Program.isSubtypeWithin]
    simp only [h.types, h.supertypesOf, h.isReference, ih]

theorem isSubtype {a b : TypeId} : p'.isSubtype a b = p.isSubtype a b := by
  rw [Program.isSubtype, h.types, h.isSubtypeWithin]
  rfl

theorem superclasses {t : TypeId} : p'.superclasses t = p.superclasses t :=
  Catalog.superclasses_congr h.types

theorem interfacesOf : p'.interfacesOf = p.interfacesOf := by
  rw [← h.rest]
  rfl

theorem declared? : p'.declared? = p.declared? := by
  rw [← h.rest]
  rfl

theorem resolve {r : MethodRef} : p'.resolve r = p.resolve r := by
  rw [Program.resolve, Program.resolve, h.superclasses, h.interfacesOf, h.declared?]

theorem implemented? : p'.implemented? = p.implemented? := by
  funext t sub
  rw [Program.implemented?, Program.implemented?, h.declared?]
  congr 1
  funext m
  have same := h.map_method? (fun _ _ => MethodDecl.Reorders.isAbstract) m
  simpa only [Option.any_map] using congrArg (Option.any not) same

theorem dispatchStart? : p'.dispatchStart? = p.dispatchStart? := by
  rw [← h.rest]
  rfl

theorem dispatch {t : TypeId} {sub : Subsignature} : p'.dispatch t sub = p.dispatch t sub := by
  simp only [Program.dispatch, h.dispatchStart?, h.superclasses, h.implemented?, h.interfacesOf]

theorem allocatorType {o : AbstractObject} : p'.allocatorType o = p.allocatorType o := by
  rw [Catalog.allocatorType, Catalog.allocatorType, Selector.allocatorType?, Selector.allocatorType?]
  cases o.container with
  | none => rfl
  | some m =>
    have same := h.map_method? (f := fun d => d.ref.owner) (fun d d' same => by rw [same.ref]) m
    exact congrArg (Option.getD · o.type) same

theorem indexed : p'.Indexed := Program.indexed_of_uses h.uses

theorem isScoped (owned : p.toCatalog.Scoped) : p'.toCatalog.Scoped where
  methods m d' hd' := by
    obtain ⟨d, hd, same⟩ := Roster.exists_getElem?_of_forall₂ h.methods.flip hd'
    have own := owned.methods m d hd
    have owns {v : VarId} (hv : p.Owns m v) : p'.Owns m v := by
      rw [Catalog.Owns, h.vars]
      exact hv
    exact {
      receiver := fun v hv => owns (own.receiver v (same.receiver ▸ hv))
      params := fun v hv => owns (own.params v (same.params ▸ hv))
      apart := by rw [same.receiver, same.params]; exact own.apart
      returns := fun v hv => owns (own.returns v (same.returns.mem_iff.2 hv))
      body := fun s hs v hv => owns (own.body s (same.symm.mem_body hs) v hv)
      invokes := fun s hs => by
        rw [h.callSites]
        exact own.invokes s (same.symm.mem_body hs) }
  sites s decl hs v hv := by
    rw [h.callSites] at hs
    rw [Catalog.Owns, h.vars]
    exact owned.sites s decl hs v hv

end Program.Rearranges

namespace Program.Reorders

variable {p p' : Program} (h : p.Reorders p')
include h

theorem rearranges : p.Rearranges p' where
  rest := by
    have entries : p'.entries = p.entries := by rw [← h.rest]
    rw [entries]
    exact h.rest
  methods := h.methods
  entries := by rw [← h.rest]
  uses := h.uses

theorem symm (uses : p.uses = p.useIndex) : p'.Reorders p where
  rest := by rw [← h.rest]
  methods := (h.rearranges.symm uses).methods
  uses := uses

theorem indexed : p'.Indexed := h.rearranges.indexed

theorem isScoped (owned : p.toCatalog.Scoped) : p'.toCatalog.Scoped := h.rearranges.isScoped owned

end Program.Reorders

/-! ### Built programs -/

/-- All indices of a program are those of its declarations. -/
structure Program.Complete (p : Program) : Prop where
  uses : p.uses = p.useIndex
  signatures : ∃ texts, (p.methods.toList.mapM fun m => p.refSignature? m.ref) = some texts ∧
    p.signatures = (p.signatureIndex texts).1
  declared : p.declared = p.declarationIndex
  supertypeTable : p.supertypeTable = .ofList (p.types.ids.map p.supertypes)

theorem Program.complete_of_build {b : Builder} {p : Program} (built : b.build = .ok p) :
    p.Complete := by
  unfold Builder.build at built
  split at built
  next => cases built
  next texts found =>
    split at built
    next =>
      cases built
      refine ⟨rfl, ⟨texts, ?_, rfl⟩, rfl, rfl⟩
      unfold Builder.signatures? at found
      split at found
      · exact found
      · cases found
    next => cases built

/-- Two complete programs that differ in the order of statements and entries only. -/
theorem Program.Complete.rearranges {p p' : Program} (h : p.Complete) (h' : p'.Complete)
    (rest : { p.toCatalog with methods := p'.methods, entries := p'.entries } = p'.toCatalog)
    (methods : List.Forall₂ MethodDecl.Reorders p.methods.toList p'.methods.toList)
    (entries : p.entries.Perm p'.entries) : p.Rearranges p' := by
  have types : p'.types = p.types := by rw [← rest]
  have refs : p'.methods.toList.map MethodDecl.ref = p.methods.toList.map MethodDecl.ref := by
    rw [← List.forall₂_eq_eq_eq, List.forall₂_map_left_iff, List.forall₂_map_right_iff]
    exact (methods.imp fun d d' same => same.ref).flip
  have declared : p'.declared = p.declared := by
    rw [h.declared, h'.declared, Catalog.declarationIndex_congr refs]
  have supertypeTable : p'.supertypeTable = p.supertypeTable := by
    rw [h.supertypeTable, h'.supertypeTable, types,
      show p'.supertypes = p.supertypes from funext fun t => Catalog.supertypes_congr types]
  have signatures : p'.signatures = p.signatures := by
    obtain ⟨texts, found, same⟩ := h.signatures
    obtain ⟨texts', found', same'⟩ := h'.signatures
    cases found'.symm.trans ((Catalog.signatures_congr refs types).trans found)
    rw [same, same', Catalog.signatureIndex, Catalog.signatureIndex, Catalog.methods_ids_congr refs]
  refine ⟨?_, methods, entries, h'.uses⟩
  obtain ⟨c, uses, signatures, declared, table⟩ := p
  obtain ⟨⟨types', fields', methods', vars', callSites', entries'⟩, uses', signatures', declared',
    table'⟩ := p'
  cases declared
  cases supertypeTable
  cases signatures
  cases rest
  rfl

/-- Two complete programs that differ in the order of statements only. -/
theorem Program.Complete.reorders {p p' : Program} (h : p.Complete) (h' : p'.Complete)
    (rest : { p.toCatalog with methods := p'.methods } = p'.toCatalog)
    (methods : List.Forall₂ MethodDecl.Reorders p.methods.toList p'.methods.toList) :
    p.Reorders p' := by
  have entries : p'.entries = p.entries := by rw [← rest]
  have rearranges : p.Rearranges p' :=
    h.rearranges h' (by rw [entries]; exact rest) methods (by rw [entries])
  refine ⟨?_, methods, h'.uses⟩
  have same := rearranges.rest
  rw [entries] at same
  exact same

/-! ### Facts about reordered programs -/

/-- The same elements, one place further back. -/
def behind (e : Equiv.Perm Nat) : Equiv.Perm Nat where
  toFun
    | 0 => 0
    | i + 1 => e i + 1
  invFun
    | 0 => 0
    | i + 1 => e.symm i + 1
  left_inv i := by cases i <;> simp
  right_inv i := by cases i <;> simp

/-- A list and the same list in another order, position by position. -/
theorem exists_positions {α : Type} {l l' : List α} (perm : l.Perm l') :
    ∃ e : Equiv.Perm Nat, ∀ i, l'[e i]? = l[i]? := by
  induction perm with
  | nil => exact ⟨.refl _, fun _ => rfl⟩
  | cons x perm ih =>
    obtain ⟨e, same⟩ := ih
    refine ⟨behind e, fun i => ?_⟩
    cases i with
    | zero => rfl
    | succ i => exact same i
  | swap x y l =>
    refine ⟨.swap 0 1, fun i => ?_⟩
    match i with
    | 0 => rfl
    | 1 => rfl
    | i + 2 =>
      rw [Equiv.swap_apply_of_ne_of_ne (by omega) (by omega)]
      rfl
  | trans _ _ ih ih' =>
    obtain ⟨e, same⟩ := ih
    obtain ⟨e', same'⟩ := ih'
    exact ⟨e.trans e', fun i => (same' (e i)).trans (same i)⟩

/-- Method by method, where the statements of one program stand in another one. -/
def Program.Matches (p p' : Program) (e : MethodId → Equiv.Perm Nat) : Prop :=
  ∀ m d d', p.methods[m]? = some d → p'.methods[m]? = some d' →
    ∀ i : Nat, d'.body[e m i]? = d.body[i]?

theorem Program.Matches.symm {p p' : Program} {e : MethodId → Equiv.Perm Nat}
    (same : p.Matches p' e) : p'.Matches p fun m => (e m).symm := by
  intro m d' d hd' hd i
  have found := same m d d' hd hd' ((e m).symm i)
  rw [Equiv.apply_symm_apply] at found
  exact found.symm

theorem Program.Rearranges.exists_matching {p p' : Program} (h : p.Rearranges p') :
    ∃ e, p.Matches p' e := by
  have each (m : MethodId) : ∃ e : Equiv.Perm Nat, ∀ d d', p.methods[m]? = some d →
      p'.methods[m]? = some d' → ∀ i : Nat, d'.body[e i]? = d.body[i]? := by
    cases hd : p.methods[m]? with
    | none => exact ⟨.refl _, fun d d' found => by cases found⟩
    | some d =>
      obtain ⟨d', hd', same⟩ := h.method? hd
      obtain ⟨e, positions⟩ := exists_positions same.body
      refine ⟨e, fun _ _ found found' i => ?_⟩
      cases found
      cases hd'.symm.trans found'
      rw [← Array.getElem?_toList, ← Array.getElem?_toList]
      exact positions i
  choose e matching using each
  exact ⟨e, matching⟩

section Renumber

variable (f : MethodId → Nat → Nat)

/-- An allocation in another position. -/
def Origin.renumber : Origin → Origin
  | .allocation m i => .allocation m (f m i)
  | .mock description site => .mock description site

def AbstractObject.renumber (o : AbstractObject) : AbstractObject :=
  { o with origin := o.origin.renumber f }

def Marker.renumber : Marker → Marker
  | .object o => .object (o.renumber f)
  | .callSite site => .callSite site
  | .type t => .type t

end Renumber

/-- Translating the positions of allocations leads from a program to the same program with its
statements and entries in another order. -/
def Program.Rearranges.translation {p p' : Program} (h : p.Rearranges p')
    {e : MethodId → Equiv.Perm Nat} (matching : p.Matches p' e) (sel : Selector) :
    Translation p sel p' sel where
  situation := List.map (Marker.renumber fun m => e m)
  heap := List.map (Marker.renumber fun m => e m)
  object := AbstractObject.renumber fun m => e m
  situation_nil := rfl
  heap_nil := rfl
  type _ := rfl
  mock _ _ _ _ := rfl
  callee c site := by
    cases sel with
    | insensitive => rfl
    | callSite k => exact List.map_take
    | object | type => rfl
  dispatch c site v := by
    cases sel with
    | insensitive => rfl
    | callSite k => exact List.map_take
    | object k => exact List.map_take
    | type k =>
      have same : p'.allocatorType (v.object.renumber fun m => e m) = p.allocatorType v.object :=
        h.allocatorType
      simp only [Selector.dispatchSituation, same, List.map_take, List.map_cons, Marker.renumber]
  allocation c := List.map_take
  entries := h.entries.subset
  callSites := h.callSites
  resolve := funext fun _ => h.resolve
  dispatches := funext fun _ => funext fun _ => h.dispatch
  isSubtype := funext fun _ => funext fun _ => h.isSubtype
  methods m d hd := by
    obtain ⟨d', hd', same⟩ := h.method? hd
    refine ⟨d', hd', same.receiver, same.params, same.returns.subset, fun i s hs => ?_⟩
    exact ⟨e m i, (matching m d d' hd hd' i).trans hs, fun _ => rfl⟩

end PointsTo
