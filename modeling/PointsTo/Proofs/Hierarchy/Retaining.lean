import PointsTo.Proofs.Hierarchy.Declaring

/-!
Once the classes are declared, the loader adds arrays, primitive types and the null type, but no
class and no interface, and it touches none that there is, whether or not it fails in the end.
-/
namespace PointsTo

namespace Builder

/-- All types of `b` are kept, and whatever is added is neither a class nor an interface. -/
structure Retains (b b' : Builder) : Prop where
  grows : b.Grows b'
  old : ∀ (t : TypeId) name shape, b'.catalog.types[t]? = some ⟨name, .nominal shape⟩ →
    b.catalog.types[t]? = some ⟨name, .nominal shape⟩

variable {α β : Type} {b₀ b : Builder}

theorem Retains.of_types {t : Builder} (h : b₀.Retains b) (same : t.catalog.types = b.catalog.types) :
    b₀.Retains t := by
  refine ⟨?_, ?_⟩
  · rw [Grows, same]
    exact h.grows
  · rw [same]
    exact h.old

theorem Retains.extends_iff (h : b₀.Retains b) {s t : TypeId} :
    b.catalog.Extends t s ↔ b₀.catalog.Extends t s := by
  have same (shape : ClassShape) : b.catalog.shape? t = some shape ↔
      b₀.catalog.shape? t = some shape := by
    constructor <;> intro found
    · obtain ⟨name, declared⟩ := Catalog.types_of_shape? found
      rw [Catalog.shape?, h.old t name shape declared]
    · obtain ⟨name, declared⟩ := Catalog.types_of_shape? found
      have declared' : b.catalog.types[t]? = some ⟨name, .nominal shape⟩ := h.grows t _ declared
      rw [Catalog.shape?, declared']
  simp only [Catalog.extends_iff, same]

theorem Retains.layered (h : b₀.Retains b) (layered : b₀.catalog.Layered) : b.catalog.Layered :=
  fun t s extends' => layered t s (h.extends_iff.1 extends')

/-- A type that the loader adds once the classes are declared. -/
inductive Added (c : Catalog) : String → TypeForm → Prop
  | array {elem : TypeId} {name : String} (known : c.typeName? elem = some name) :
    Added c (name ++ "[]") (.array elem)
  | primitive {name : String} : Added c name .primitive
  | null : Added c "null" .null

theorem Added.not_nominal {c : Catalog} {name : String} {form : TypeForm} (h : Added c name form)
    (shape : ClassShape) : form ≠ .nominal shape := by
  cases h <;> simp

/-- A property of the types of a construction that survives the types that the loader adds. -/
class Steady (I : Builder → Prop) : Prop where
  of_types : ∀ {b t : Builder}, I b → t.catalog.types = b.catalog.types → I t
  intern : ∀ {b : Builder} {name : String} {form : TypeForm}, I b → Added b.catalog name form →
    I { b with catalog := { b.catalog with types := (b.catalog.types.intern ⟨name, form⟩).2 } }

instance : Steady b₀.Retains where
  of_types := Retains.of_types
  intern {b name form} h added := by
    have grows : b.catalog.types.Within (b.catalog.types.intern ⟨name, form⟩).2 :=
      Table.within_intern
    refine ⟨Table.Within.trans h.grows grows, fun t name' shape found => h.old t name' shape ?_⟩
    obtain old | ⟨-, new⟩ := (b.catalog.types.intern_spec ⟨name, form⟩).2.2 t _ found
    · exact old
    · cases new
      exact absurd rfl (added.not_nominal shape)

instance : IsPreorder Builder fun _ _ => True where
  refl _ := trivial
  trans _ _ _ _ _ := trivial

/-- However it ends, a step keeps a property of the construction. -/
def Spares (I : Builder → Prop) (f : Build α) : Prop :=
  ∀ b, Upholds I (fun _ _ => True) (fun _ => I) f b fun _ _ => True

namespace Spares

variable {I : Builder → Prop} {f : Build α} {g : α → Build β}

theorem pure {a : α} : Spares I (Pure.pure a) := fun _ => .pure trivial

theorem throw {fault : Fault} : Spares I (MonadExcept.throw fault : Build α) := fun _ => .throw id

theorem bind (hf : Spares I f) (hg : ∀ a, Spares I (g a)) : Spares I (f >>= g) := fun b =>
  .bind (hf b) fun a t _ _ => hg a t

theorem map {h : α → β} (hf : Spares I f) : Spares I (h <$> f) := bind hf fun _ => pure

theorem forM {l : List α} {f : α → Build PUnit} (round : ∀ a ∈ l, Spares I (f a)) :
    Spares I (l.forM f) := fun _ => .forM fun a h t _ => round a h t

theorem mapM {l : List α} {f : α → Build β} (round : ∀ a ∈ l, Spares I (f a)) :
    Spares I (l.mapM f) := fun _ => .mapM fun a h t _ => round a h t

theorem foldlM {l : List α} {f : β → α → Build β} {b : β}
    (round : ∀ a ∈ l, ∀ b, Spares I (f b a)) : Spares I (l.foldlM f b) := fun _ =>
  .foldlM fun a h b t _ => round a h b t

theorem option {o : Option α} {f : α → Build β} (h : ∀ a, Spares I (f a)) :
    Spares I (o.mapM f) := by
  cases o with
  | none => exact pure
  | some a => exact bind (h a) fun _ => pure

/-- Something is done under a condition, before the rest. -/
theorem ite_bind {c : Prop} [Decidable c] {f : Build PUnit} {rest : Build β} (hf : Spares I f)
    (hrest : Spares I rest) : Spares I (if c then f >>= fun _ => rest else rest) := fun b =>
  .ite_bind (hf b) fun t _ => hrest t

theorem modify [Steady I] {h : Builder → Builder}
    (same : ∀ b, (h b).catalog.types = b.catalog.types) : Spares I (modify h) := fun b =>
  .modify fun hb => ⟨Steady.of_types hb (same b), trivial⟩

end Spares

/-! ### Steps of a construction -/

variable {I : Builder → Prop}

theorem spares_declarations : Spares I declarations := fun _ hb => ⟨hb, trivial, trivial⟩

/-- What holds after the declarations have been looked at, whatever they are. -/
theorem upholds_declarations {g : Catalog → Build β} {Q : β → Builder → Prop}
    (hg : Upholds I (fun _ _ => True) (fun _ => I) (g b.catalog) b Q) :
    Upholds I (fun _ _ => True) (fun _ => I) (declarations >>= g) b Q := hg

theorem spares_known {x : Option α} : Spares I (known x) := by
  cases x with
  | none => exact .throw
  | some a => exact .pure

theorem spares_field? {owner : TypeId} {name : String} : Spares I (field? owner name) := by
  refine .bind spares_declarations fun c => ?_
  dsimp only
  split
  · exact .pure
  · split
    · exact .pure
    · exact .throw

theorem spares_method {m : MethodId} : Spares I (method m) :=
  .bind spares_declarations fun _ => spares_known

variable [Steady I]

theorem spares_note {text : String} : Spares I (note text) := .modify fun _ => rfl

theorem spares_modifyCatalog {f : Catalog → Catalog} (same : ∀ c, (f c).types = c.types) :
    Spares I (modifyCatalog f) := .modify fun b => same b.catalog

theorem upholds_addType {name : String} {form : TypeForm} (added : Added b.catalog name form) :
    Upholds I (fun _ _ => True) (fun _ => I) (addType name form) b fun _ _ => True := by
  intro hb
  have interned := Steady.intern hb added
  refine Ends.bind (P := fun c t => b = t ∧ c = b.catalog) ⟨rfl, rfl⟩ ?_
  rintro _ _ ⟨rfl, rfl⟩
  generalize b.catalog.types.intern ⟨name, form⟩ = pair at interned
  obtain ⟨id, types⟩ := pair
  refine Ends.bind Description.ends_modifyCatalog ?_
  rintro _ _ rfl
  dsimp only
  split
  · exact ⟨Steady.of_types interned rfl, trivial, trivial⟩
  · exact ⟨interned, trivial, trivial⟩

theorem spares_arrayOf {elem : TypeId} : Spares I (arrayOf elem) := fun b => by
  refine upholds_declarations ?_
  cases known : b.catalog.typeName? elem with
  | none => exact Spares.throw b
  | some name => exact upholds_addType (.array known)

theorem spares_addPrimitive {name : String} : Spares I (addPrimitive name) := fun _ =>
  upholds_addType .primitive

theorem spares_nullType : Spares I nullType := fun _ => upholds_addType .null

theorem spares_addField {owner : TypeId} {name : String} {type : TypeId} {isStatic : Bool} :
    Spares I (addField owner name type isStatic) :=
  .bind spares_declarations fun _ => .bind (spares_modifyCatalog fun _ => rfl) fun _ => .pure

theorem spares_addVar {m : MethodId} {name : String} {type : TypeId} :
    Spares I (addVar m name type) :=
  .bind spares_declarations fun _ => .bind (spares_modifyCatalog fun _ => rfl) fun _ => .pure

theorem spares_addMethod {ref : MethodRef} {isStatic isAbstract : Bool} :
    Spares I (addMethod ref isStatic isAbstract) := by
  refine .bind spares_declarations fun c => ?_
  have finish (receiver : Option VarId) : Spares I (do
      let params ← ref.sub.params.zipIdx.mapM fun param =>
        addVar c.methods.nextId s!"p{param.2}" param.1
      let method := { ref, isStatic, isAbstract, receiver, params : MethodDecl }
      modifyCatalog fun c => { c with methods := c.methods.push method }
      return c.methods.nextId) :=
    .bind (.mapM fun _ _ => spares_addVar) fun _ =>
      .bind (spares_modifyCatalog fun _ => rfl) fun _ => .pure
  dsimp only
  split
  · exact finish none
  · exact .bind (.map spares_addVar) finish

theorem spares_modifyMethod {m : MethodId} {f : MethodDecl → MethodDecl} :
    Spares I (modifyMethod m f) :=
  .bind spares_method fun _ => spares_modifyCatalog fun _ => rfl

theorem spares_checkVars {m : MethodId} {vars : List VarId} : Spares I (checkVars m vars) := by
  refine .forM fun v _ => .bind spares_declarations fun _ => .bind spares_known fun d => ?_
  split
  · exact spares_note
  · exact .pure

theorem spares_checkField {f : FieldId} {isStatic : Bool} : Spares I (checkField f isStatic) := by
  refine .bind spares_declarations fun _ => .bind spares_known fun d => ?_
  dsimp only
  split
  · exact spares_note
  · exact .pure

theorem spares_addStatement {m : MethodId} {s : Statement} : Spares I (addStatement m s) :=
  .bind spares_method fun _ => .ite_bind spares_note spares_modifyMethod

theorem spares_add {m : MethodId} {s : Statement} : Spares I (add m s) := by
  refine .bind spares_checkVars fun _ => ?_
  cases s with
  | loadField | storeField | loadStatic | storeStatic =>
    exact .bind spares_checkField fun _ => spares_addStatement
  | new | assign | cast | loadArray | storeArray | invoke => exact spares_addStatement
  | ret var =>
    cases var with
    | none => exact spares_addStatement
    | some v => exact .bind spares_modifyMethod fun _ => spares_addStatement

theorem spares_addCall {m : MethodId} {kind : CallKind} {target : MethodRef} {base : Option VarId}
    {args : List VarId} {result : Option VarId} :
    Spares I (addCall m kind target base args result) := by
  refine .bind spares_checkVars fun _ => ?_
  have push : Spares I (do
      let sites := (← declarations).callSites
      let index := sites.toList.countP (·.container == m)
      modifyCatalog fun c =>
        { c with callSites := c.callSites.push (CallSite.mk m index kind target base args result) }
      addStatement m (.invoke sites.nextId)
      return sites.nextId) :=
    .bind spares_declarations fun _ => .bind (spares_modifyCatalog fun _ => rfl) fun _ =>
      .bind spares_addStatement fun _ => .pure
  exact .ite_bind spares_note push

theorem spares_addDynamicCall {m : MethodId} {call : DynamicCall} {name : String}
    {type : Option TypeId} {captured : List VarId} {result : Option VarId} :
    Spares I (addDynamicCall m call name type captured result) :=
  .bind spares_method fun _ => .bind spares_declarations fun _ =>
    .bind (.mapM fun _ _ => spares_known) fun _ => spares_addCall

theorem spares_addEntry {m : MethodId} : Spares I (addEntry m) := by
  refine spares_modifyCatalog fun c => ?_
  split
  · rfl
  · rfl

end Builder

namespace Description

open Builder

variable {I : Builder → Prop} [Steady I]

/-! ### Names -/

theorem spares_resolveType (name : List Char) : Spares I (resolveType name) := by
  induction n : name.length using Nat.strongRecOn generalizing name with
  | ind n ih =>
    subst n
    rw [resolveType]
    split
    next elem h =>
      have shorter : elem.length < name.length := by
        have h := congrArg List.length (Text.before?_eq_some_iff.1 h)
        have := length_trim_le name
        simp only [List.length_append, List.length_cons, List.length_nil] at h
        omega
      exact .bind (ih _ shorter elem rfl) fun _ => spares_arrayOf
    next =>
      dsimp only
      split
      · exact spares_addPrimitive
      · split
        · exact spares_nullType
        · refine .bind spares_declarations fun c => ?_
          split
          · exact .pure
          · exact .throw

theorem spares_typeNamed {name : String} : Spares I (typeNamed name) := spares_resolveType _

theorem spares_resultNamed {name : String} : Spares I (resultNamed name) := by
  unfold resultNamed
  split
  · exact .pure
  · exact .map spares_typeNamed

theorem spares_refNamed {text : String} : Spares I (refNamed text) := by
  have read : Spares I (liftM (Signature.read text) : Build Signature) := by
    cases Signature.read text with
    | error => exact .throw
    | ok => exact .pure
  exact .bind read fun _ => .bind spares_typeNamed fun _ =>
    .bind (.mapM fun _ _ => spares_typeNamed) fun _ =>
      .bind (.option fun _ => spares_typeNamed) fun _ => .pure

theorem spares_fieldNamed {text : String} : Spares I (fieldNamed text) := by
  unfold fieldNamed
  split
  · exact .throw
  · refine .bind (spares_resolveType _) fun _ => .bind spares_field? fun field => ?_
    split
    · exact .pure
    · exact .throw

omit [Steady I] in
theorem spares_varNamed {m : Method} {scope : Scope} {name : String} :
    Spares I (varNamed m scope name) := by
  unfold varNamed
  split
  · exact .pure
  · exact .throw

/-! ### Methods -/

theorem spares_declareVars {id : MethodId} {m : Method} : Spares I (declareVars id m) := by
  refine .bind spares_method fun decl => .foldlM fun var _ scope => ?_
  refine .bind spares_typeNamed fun _ => .bind spares_addVar fun _ => ?_
  exact .ite_bind .throw .pure

theorem spares_addDescribed {id : MethodId} {m : Method} {scope : Scope} (s : Statement) :
    Spares I (addDescribed id m scope s) := by
  have var (name : String) : Spares I (varNamed m scope name) := spares_varNamed
  have vars (names : List String) : Spares I (names.mapM (varNamed m scope)) :=
    .mapM fun name _ => var name
  have maybe (name : Option String) : Spares I (name.mapM (varNamed m scope)) := .option var
  cases s with
  | new lhs type => exact .bind spares_typeNamed fun _ => .bind (var lhs) fun _ => spares_add
  | assign lhs rhs => exact .bind (var lhs) fun _ => .bind (var rhs) fun _ => spares_add
  | cast lhs rhs type =>
    exact .bind spares_typeNamed fun _ => .bind (var lhs) fun _ => .bind (var rhs) fun _ => spares_add
  | load lhs base field =>
    exact .bind spares_fieldNamed fun _ => .bind (var lhs) fun _ => .bind (var base) fun _ =>
      spares_add
  | store base field rhs =>
    exact .bind spares_fieldNamed fun _ => .bind (var base) fun _ => .bind (var rhs) fun _ =>
      spares_add
  | loadStatic lhs field => exact .bind spares_fieldNamed fun _ => .bind (var lhs) fun _ => spares_add
  | storeStatic field rhs =>
    exact .bind spares_fieldNamed fun _ => .bind (var rhs) fun _ => spares_add
  | loadArray lhs base => exact .bind (var lhs) fun _ => .bind (var base) fun _ => spares_add
  | storeArray base rhs => exact .bind (var base) fun _ => .bind (var rhs) fun _ => spares_add
  | ret v => exact .bind (maybe v) fun _ => spares_add
  | invoke kind target base args result =>
    exact .bind spares_refNamed fun _ => .bind (maybe base) fun _ => .bind (vars args) fun _ =>
      .bind (maybe result) fun _ => .bind spares_addCall fun _ => .pure
  | invokeDynamic bootstrap name ret handle args result =>
    exact .bind (.option fun _ => .bind spares_refNamed fun _ => .pure) fun _ =>
      .bind spares_resultNamed fun _ => .bind (vars args) fun _ => .bind (maybe result) fun _ =>
        .bind spares_addDynamicCall fun _ => .pure

theorem spares_declareMembers (k : Class) : Spares I (declareMembers k) := by
  refine .bind spares_typeNamed fun owner => .bind (.forM fun f _ => ?_) fun _ => .mapM fun m _ => ?_
  · exact .bind spares_typeNamed fun _ => .bind spares_addField fun _ => .pure
  · refine .bind ?_ fun _ => .pure
    exact .bind (.mapM fun _ _ => spares_typeNamed) fun _ => .bind spares_resultNamed fun _ =>
      spares_addMethod

theorem spares_addBody {id : MethodId} {m : Method} : Spares I (addBody id m) :=
  .bind spares_declareVars fun _ => .forM fun s _ => spares_addDescribed s

theorem spares_addEntryNamed {text : String} : Spares I (addEntryNamed text) := by
  refine .bind spares_refNamed fun ref => .bind spares_declarations fun c => ?_
  split
  · exact spares_addEntry
  · exact .throw

/-- Everything that comes after the declaration of the classes. -/
theorem spares_members (d : Description) : Spares I (do
    let bodies ← d.classes.mapM declareMembers
    bodies.flatten.forM fun (id, m) => addBody id m
    d.entries.forM addEntryNamed) :=
  .bind (.mapM fun k _ => spares_declareMembers k) fun _ =>
    .bind (.forM fun _ _ => spares_addBody) fun _ => .forM fun _ _ => spares_addEntryNamed

end Description
end PointsTo
