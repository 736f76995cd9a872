import PointsTo.Proofs.Ensures
import PointsTo.Proofs.UseIndex

/-!
Constructions without problems are well scoped: methods mention none but their own variables.
-/
namespace PointsTo

namespace Roster

variable {kind : Entity} {α : Type} {r : Roster kind α} {i : Id kind} {a : α}

theorem getElem?_push : (r.push a)[i]? = if i = r.nextId then some a else r[i]? := by
  change (r.entries.push a)[i.index]? = if i = ⟨r.entries.size⟩ then some a else r.entries[i.index]?
  rw [Array.getElem?_push]
  simp only [Id.ext_iff]

theorem getElem?_nextId : r[r.nextId]? = none := Array.getElem?_eq_none (Nat.le_refl _)

theorem getElem?_push_of {b : α} (h : r[i]? = some b) : (r.push a)[i]? = some b := by
  rw [getElem?_push, if_neg, h]
  rintro rfl
  rw [getElem?_nextId] at h
  cases h

end Roster

/-- The variables of a call site. -/
def CallSite.vars (s : CallSite) : List VarId := s.args ++ s.base.toList ++ s.result.toList

namespace Catalog

/-- The variable belongs to the method. -/
def Owns (c : Catalog) (m : MethodId) (v : VarId) : Prop :=
  ∃ d, c.vars[v]? = some d ∧ d.method = m

/-- Whatever a method mentions is its own. -/
structure ScopedMethod (c : Catalog) (m : MethodId) (d : MethodDecl) : Prop where
  receiver : ∀ v, d.receiver = some v → c.Owns m v
  params : ∀ v ∈ d.params, c.Owns m v
  apart : (d.receiver.toList ++ d.params).Nodup
  returns : ∀ v ∈ d.returns, c.Owns m v
  body : ∀ s ∈ d.body, ∀ v ∈ Builder.mentioned s, c.Owns m v
  invokes : ∀ s, .invoke s ∈ d.body →
    ∃ decl, c.callSites[s]? = some decl ∧ decl.container = m

structure Scoped (c : Catalog) : Prop where
  methods : ∀ (m : MethodId) d, c.methods[m]? = some d → c.ScopedMethod m d
  sites : ∀ (s : CallSiteId) decl, c.callSites[s]? = some decl →
    ∀ v ∈ decl.vars, c.Owns decl.container v

variable {c : Catalog} {m : MethodId} {d : MethodDecl}

theorem Owns.unique {n : MethodId} {v : VarId} (h : c.Owns m v) (h' : c.Owns n v) : m = n := by
  obtain ⟨d, hd, rfl⟩ := h
  obtain ⟨d', hd', rfl⟩ := h'
  cases hd.symm.trans hd'
  rfl

theorem ScopedMethod.mono {c' : Catalog} (h : c.ScopedMethod m d)
    (owns : ∀ v, c.Owns m v → c'.Owns m v)
    (sites : ∀ (s : CallSiteId) decl, c.callSites[s]? = some decl →
      c'.callSites[s]? = some decl) : c'.ScopedMethod m d where
  receiver v hv := owns v (h.receiver v hv)
  params v hv := owns v (h.params v hv)
  apart := h.apart
  returns v hv := owns v (h.returns v hv)
  body s hs v hv := owns v (h.body s hs v hv)
  invokes s hs := (h.invokes s hs).imp fun decl => And.imp_left (sites s decl)

namespace Scoped

variable (h : c.Scoped)
include h

/-- Types, fields and entries do not matter, and variables may be added. -/
theorem of_owns {c' : Catalog} (methods : c'.methods = c.methods)
    (sites : c'.callSites = c.callSites) (owns : ∀ m v, c.Owns m v → c'.Owns m v) : c'.Scoped where
  methods m d hd := by
    rw [methods] at hd
    refine (h.methods m d hd).mono (owns m) fun s decl => ?_
    rw [sites]
    exact id
  sites s decl hs v hv := by
    rw [sites] at hs
    exact owns _ v (h.sites s decl hs v hv)

theorem pushMethod (hd : c.ScopedMethod c.methods.nextId d) :
    { c with methods := c.methods.push d }.Scoped where
  methods m d' hd' := by
    rw [Roster.getElem?_push] at hd'
    refine ScopedMethod.mono (c := c) ?_ (fun _ => id) fun _ _ => id
    split at hd'
    next same =>
      cases hd'
      rw [same]
      exact hd
    next => exact h.methods m d' hd'
  sites := h.sites

theorem pushSite {decl : CallSite} (owns : ∀ v ∈ decl.vars, c.Owns decl.container v) :
    { c with callSites := c.callSites.push decl }.Scoped where
  methods m d hd := (h.methods m d hd).mono (fun _ => id) fun _ _ => Roster.getElem?_push_of
  sites s decl' hs := by
    rw [Roster.getElem?_push] at hs
    split at hs
    · cases hs
      exact owns
    · exact h.sites s decl' hs

theorem modifyMethod {f : MethodDecl → MethodDecl}
    (keep : ∀ d, c.ScopedMethod m d → c.ScopedMethod m (f d)) :
    { c with methods := c.methods.modify m f }.Scoped where
  methods m' d hd := by
    rw [Roster.getElem?_modify] at hd
    refine ScopedMethod.mono (c := c) ?_ (fun _ => id) fun _ _ => id
    split at hd
    next same =>
      obtain ⟨d', hd', rfl⟩ := Option.map_eq_some_iff.1 hd
      cases same
      exact keep d' (h.methods m d' hd')
    next => exact h.methods m' d hd
  sites := h.sites

end Scoped

end Catalog

/-- What may be declared of a program. Calls are statements of their own kind. -/
inductive Declaration
  | type (name : String) (form : TypeForm)
  | array (elem : TypeId)
  | field (owner : TypeId) (name : String) (type : TypeId) (isStatic : Bool)
  | method (ref : MethodRef) (isStatic isAbstract : Bool)
  | var (method : MethodId) (name : String) (type : TypeId)
  | statement (method : MethodId) (s : Statement) (plain : ∀ site, s ≠ .invoke site)
  | call (container : MethodId) (kind : CallKind) (target : MethodRef) (base : Option VarId)
    (args : List VarId) (result : Option VarId)
  | dynamicCall (container : MethodId) (call : DynamicCall) (name : String)
    (resultType : Option TypeId) (captured : List VarId) (result : Option VarId)
  | entry (method : MethodId)

/-- Whether a statement is none that calls. -/
def Statement.isPlain : Statement → Bool
  | .invoke _ => false
  | _ => true

/-- The declaration of a statement that can be seen not to call. -/
def Declaration.plain (method : MethodId) (s : Statement) (seen : s.isPlain = true) : Declaration :=
  .statement method s (by rintro site rfl; cases seen)

namespace Builder

/-- The state after a declaration; one that is given an unknown id may have stopped halfway. -/
def declare (b : Builder) : Declaration → Builder
  | .type name form => (addType name form b).2
  | .array elem => (arrayOf elem b).2
  | .field owner name type isStatic => (addField owner name type isStatic b).2
  | .method ref isStatic isAbstract => (addMethod ref isStatic isAbstract b).2
  | .var method name type => (addVar method name type b).2
  | .statement method s _ => (add method s b).2
  | .call container kind target base args result =>
    (addCall container kind target base args result b).2
  | .dynamicCall container call name resultType captured result =>
    (addDynamicCall container call name resultType captured result b).2
  | .entry method => (addEntry method b).2

/-- What a list of declarations constructs. -/
def ofDeclarations (ds : List Declaration) : Builder := ds.foldl declare {}

variable {b b' : Builder}

/-- A builder that has no problems is well scoped. -/
def WellScoped (b : Builder) : Prop := b.problems = [] → b.catalog.Scoped

/-- From `b` to `b'`, methods and call sites are the same, fields are kept, and variables stay with
their methods. Problems may have been noted. -/
structure Keeps (b b' : Builder) : Prop where
  methods : b'.catalog.methods = b.catalog.methods
  sites : b'.catalog.callSites = b.catalog.callSites
  fields : ∀ (f : FieldId) d, b.catalog.fields[f]? = some d → b'.catalog.fields[f]? = some d
  owns : ∀ m v, b.catalog.Owns m v → b'.catalog.Owns m v
  problems : b'.problems = [] → b.problems = []

namespace Keeps

theorem refl (b : Builder) : b.Keeps b := ⟨rfl, rfl, fun _ _ => id, fun _ _ => id, id⟩

theorem trans {b'' : Builder} (h : b.Keeps b') (h' : b'.Keeps b'') : b.Keeps b'' :=
  ⟨h'.methods.trans h.methods, h'.sites.trans h.sites, fun f d => h'.fields f d ∘ h.fields f d,
    fun m v => h'.owns m v ∘ h.owns m v, h.problems ∘ h'.problems⟩

theorem note (b : Builder) (text : String) :
    b.Keeps { b with problems := b.problems ++ [text] } :=
  ⟨rfl, rfl, fun _ _ => id, fun _ _ => id, fun h => (List.append_eq_nil_iff.1 h).1⟩

theorem wellScoped (h : b.Keeps b') (hb : b.WellScoped) : b'.WellScoped := fun none =>
  (hb (h.problems none)).of_owns h.methods h.sites h.owns

end Keeps

/-! ### Steps of declarations -/

theorem ensures_known {α : Type} {x : Option α} :
    Ensures (known x) b fun a t => b = t ∧ x = some a := by
  cases x with
  | none => exact .throw
  | some a => exact .pure ⟨rfl, rfl⟩

theorem leaves_known {α : Type} {x : Option α} {Q : Builder → Prop} (h : Q b) :
    Leaves (known x) b Q := by
  cases x <;> exact h

theorem ensures_declarations : Ensures declarations b fun c t => b = t ∧ c = b.catalog := by
  rintro _ _ run
  cases run
  exact ⟨rfl, rfl⟩

theorem ensures_note {text : String} : Ensures (note text) b fun _ t => b.Keeps t :=
  .modify (.note b text)

theorem ensures_modifyCatalog {f : Catalog → Catalog} :
    Ensures (modifyCatalog f) b fun _ t => t = { b with catalog := f b.catalog } :=
  .modify rfl

theorem ensures_method {m : MethodId} :
    Ensures (method m) b fun d t => b = t ∧ b.catalog.methods[m]? = some d := by
  refine .bind ensures_declarations ?_
  rintro _ _ ⟨rfl, rfl⟩
  exact ensures_known

theorem leaves_method {m : MethodId} {Q : Builder → Prop} (h : Q b) : Leaves (method m) b Q := by
  refine .bind ensures_declarations h ?_
  rintro _ _ ⟨rfl, rfl⟩ -
  exact leaves_known h

theorem ensures_checkVars {m : MethodId} {vars : List VarId} :
    Ensures (checkVars m vars) b fun _ t => b.Keeps t ∧
      (t.problems = [] → ∀ v ∈ vars, b.catalog.Owns m v) := by
  unfold checkVars
  induction vars generalizing b with
  | nil => exact .pure ⟨.refl b, by simp⟩
  | cons v vars ih =>
    change Ensures (_ >>= fun _ => List.forM vars _) b _
    refine .bind (P := fun _ t => (∃ problems, t = { b with problems }) ∧ b.Keeps t ∧
      (t.problems = [] → b.catalog.Owns m v)) ?_ ?_
    · refine .bind ensures_declarations ?_
      rintro _ _ ⟨rfl, rfl⟩
      refine .bind ensures_known ?_
      rintro var _ ⟨rfl, hv⟩
      split
      · exact .modify ⟨⟨_, rfl⟩, .note b _, fun h => by cases (List.append_eq_nil_iff.1 h).2⟩
      next same =>
        exact .pure ⟨⟨_, rfl⟩, .refl b, fun _ => ⟨var, hv, by simpa using same⟩⟩
    · rintro _ _ ⟨⟨problems, rfl⟩, bt, own⟩
      refine ih.mono fun _ u ⟨tu, rest⟩ => ⟨bt.trans tu, fun none => ?_⟩
      exact List.forall_mem_cons.2 ⟨own (tu.problems none), rest none⟩

theorem leaves_checkVars {m : MethodId} {vars : List VarId} :
    Leaves (checkVars m vars) b b.Keeps := by
  refine .forM (fun v _ t bt => ?_) (.refl b)
  refine .bind ensures_declarations bt ?_
  rintro _ _ ⟨rfl, rfl⟩ -
  refine .bind ensures_known (leaves_known bt) ?_
  rintro var _ ⟨rfl, -⟩ -
  split
  · exact bt.trans (.note t _)
  · exact bt

theorem leaves_checkField {f : FieldId} {isStatic : Bool} :
    Leaves (checkField f isStatic) b b.Keeps := by
  refine .bind ensures_declarations (.refl b) ?_
  rintro _ _ ⟨rfl, rfl⟩ -
  refine .bind ensures_known (leaves_known (.refl b)) ?_
  rintro var _ ⟨rfl, -⟩ -
  dsimp only
  split
  · exact .note b _
  · exact .refl b

theorem ensures_modifyMethod {m : MethodId} {f : MethodDecl → MethodDecl} :
    Ensures (modifyMethod m f) b fun _ t =>
      t = { b with catalog := { b.catalog with methods := b.catalog.methods.modify m f } } := by
  refine .bind ensures_method ?_
  rintro _ _ ⟨rfl, -⟩
  exact .modify rfl

theorem leaves_modifyMethod {m : MethodId} {f : MethodDecl → MethodDecl} (hb : b.WellScoped)
    (keep : b.problems = [] → ∀ d, b.catalog.ScopedMethod m d → b.catalog.ScopedMethod m (f d)) :
    Leaves (modifyMethod m f) b WellScoped := by
  refine .bind ensures_method (leaves_method hb) ?_
  rintro _ _ ⟨rfl, -⟩ -
  exact fun none => (hb none).modifyMethod (keep none)

/-- A statement may be added when it mentions only variables of the method. -/
theorem leaves_addStatement {m : MethodId} {s : Statement} (hb : b.WellScoped)
    (owns : b.problems = [] → ∀ v ∈ mentioned s, b.catalog.Owns m v)
    (invokes : ∀ site, s = .invoke site →
      ∃ decl, b.catalog.callSites[site]? = some decl ∧ decl.container = m) :
    Leaves (addStatement m s) b WellScoped := by
  have push {t : Builder} (bt : b.Keeps t) :
      Leaves (modifyMethod m fun d => { d with body := d.body.push s }) t WellScoped := by
    refine leaves_modifyMethod (bt.wellScoped hb) fun none d hd => { hd with
      body := fun s' hs' => ?_
      invokes := fun site hs' => ?_ }
    · obtain old | rfl := Array.mem_push.1 hs'
      · exact hd.body s' old
      · exact fun v hv => bt.owns m v (owns (bt.problems none) v hv)
    · obtain old | same := Array.mem_push.1 hs'
      · exact hd.invokes site old
      · rw [bt.sites]
        exact invokes site same.symm
  refine .bind ensures_method (leaves_method hb) ?_
  rintro d _ ⟨rfl, -⟩ -
  split
  · exact .bind ensures_note (Keeps.wellScoped (.note b _) hb) fun _ _ bt _ => push bt
  · exact push (.refl b)

/-! ### Declarations -/

theorem leaves_addType {name : String} {form : TypeForm} :
    Leaves (addType name form) b b.Keeps := by
  refine .bind ensures_declarations (.refl b) ?_
  rintro _ _ ⟨rfl, rfl⟩ -
  generalize b.catalog.types.intern ⟨name, form⟩ = interned
  obtain ⟨id, types⟩ := interned
  have interned : b.Keeps { b with catalog := { b.catalog with types } } :=
    ⟨rfl, rfl, fun _ _ h => h, fun _ _ h => h, fun h => h⟩
  refine .bind ensures_modifyCatalog interned ?_
  rintro _ _ rfl bt
  dsimp only
  split
  · exact bt.trans (.note _ _)
  · exact bt

theorem leaves_arrayOf {elem : TypeId} : Leaves (arrayOf elem) b b.Keeps := by
  refine .bind ensures_declarations (.refl b) ?_
  rintro _ _ ⟨rfl, rfl⟩ -
  refine .bind ensures_known (leaves_known (.refl b)) ?_
  rintro name _ ⟨rfl, -⟩ -
  exact leaves_addType

theorem ensures_addVar {m : MethodId} {name : String} {type : TypeId} :
    Ensures (addVar m name type) b fun v t => b.Keeps t ∧ t.catalog.Owns m v ∧
      ∀ m', ¬ b.catalog.Owns m' v := by
  rintro _ _ run
  cases run
  refine ⟨⟨rfl, rfl, fun _ _ => id,
    fun m v => Exists.imp fun d => And.imp_left Roster.getElem?_push_of, id⟩, ?_, ?_⟩
  · exact ⟨⟨name, type, m⟩, by rw [Roster.getElem?_push, if_pos rfl], rfl⟩
  · rintro m' ⟨d, hd, -⟩
    cases Roster.getElem?_nextId.symm.trans hd

theorem leaves_addVar {m : MethodId} {name : String} {type : TypeId} :
    Leaves (addVar m name type) b b.Keeps :=
  (ensures_addVar _ _ rfl).1

theorem leaves_add {m : MethodId} {s : Statement} (plain : ∀ site, s ≠ .invoke site)
    (hb : b.WellScoped) : Leaves (add m s) b WellScoped := by
  refine .bind ensures_checkVars (Keeps.wellScoped leaves_checkVars hb) fun _ t ⟨bt, own⟩ ht => ?_
  have append {u : Builder} (tu : t.Keeps u) : Leaves (addStatement m s) u WellScoped :=
    leaves_addStatement (tu.wellScoped ht)
      (fun none v hv => (bt.trans tu).owns m v (own (tu.problems none) v hv))
      fun site same => absurd same (plain site)
  have checked {field : FieldId} {isStatic : Bool} :
      Leaves (checkField field isStatic >>= fun _ => addStatement m s) t WellScoped :=
    .bind leaves_checkField.ensures (Keeps.wellScoped leaves_checkField ht) fun _ _ tu _ =>
      append tu
  cases s with
  | loadField | storeField | loadStatic | storeStatic => exact checked
  | new | assign | cast | loadArray | storeArray => exact append (.refl t)
  | invoke site => exact absurd rfl (plain site)
  | ret var =>
    cases var with
    | none => exact append (.refl t)
    | some v =>
      refine .bind ensures_modifyMethod ?_ ?_
      · refine leaves_modifyMethod ht fun none d hd => { hd with returns := fun w hw => ?_ }
        obtain old | new := List.mem_append.1 hw
        · exact hd.returns w old
        · exact bt.owns m w (own none w new)
      · rintro _ _ rfl hu
        refine leaves_addStatement hu (fun none w hw => ?_) (fun _ eq => by cases eq)
        exact bt.owns m w (own none w hw)

theorem leaves_addCall {m : MethodId} {kind : CallKind} {target : MethodRef}
    {base : Option VarId} {args : List VarId} {result : Option VarId} (hb : b.WellScoped) :
    Leaves (addCall m kind target base args result) b WellScoped := by
  refine .bind ensures_checkVars (Keeps.wellScoped leaves_checkVars hb) fun _ t ⟨bt, own⟩ ht => ?_
  have push {u : Builder} (tu : t.Keeps u) (site : CallSite) (container : site.container = m)
      (vars : site.vars = args ++ base.toList ++ result.toList) :
      Leaves (do
        modifyCatalog fun c => { c with callSites := c.callSites.push site }
        addStatement m (.invoke u.catalog.callSites.nextId)
        return u.catalog.callSites.nextId) u WellScoped := by
    subst container
    have pushed : WellScoped
        { u with catalog := { u.catalog with callSites := u.catalog.callSites.push site } } :=
      fun none => (tu.wellScoped ht none).pushSite fun v hv =>
        tu.owns _ v (bt.owns _ v (own (tu.problems none) v (vars ▸ hv)))
    refine .bind ensures_modifyCatalog pushed ?_
    rintro _ _ rfl -
    refine .bind (P := fun _ _ => True) (fun _ _ _ => trivial) ?_ fun _ _ _ => id
    refine leaves_addStatement pushed (fun _ v hv => by cases hv) fun s eq => ?_
    cases eq
    exact ⟨site, by rw [Roster.getElem?_push, if_pos rfl], rfl⟩
  dsimp only
  split
  · refine .bind ensures_note (Keeps.wellScoped (.note t _) ht) fun _ u tu hu => ?_
    refine .bind ensures_declarations hu ?_
    rintro _ _ ⟨rfl, rfl⟩ -
    exact push tu _ rfl rfl
  · refine .bind ensures_declarations ht ?_
    rintro _ _ ⟨rfl, rfl⟩ -
    exact push (.refl t) _ rfl rfl

theorem leaves_addDynamicCall {m : MethodId} {call : DynamicCall} {name : String}
    {type : Option TypeId} {captured : List VarId} {result : Option VarId} (hb : b.WellScoped) :
    Leaves (addDynamicCall m call name type captured result) b WellScoped := by
  refine .bind ensures_method (leaves_method hb) ?_
  rintro d _ ⟨rfl, -⟩ -
  refine .bind ensures_declarations hb ?_
  rintro _ _ ⟨rfl, rfl⟩ -
  have params : Leaves (captured.mapM fun v => known (b.catalog.vars[v]?.map VarDecl.type)) b
      WellScoped := .mapM (fun _ _ _ => leaves_known) hb
  exact .bind params.ensures params fun _ _ ht _ => leaves_addCall ht

theorem ensures_addVars {α : Type} {m : MethodId} {l : List α} {name : α → String}
    {type : α → TypeId} :
    Ensures (l.mapM fun a => addVar m (name a) (type a)) b fun vs t =>
      b.Keeps t ∧ vs.Nodup ∧ ∀ v ∈ vs, t.catalog.Owns m v ∧ ∀ m', ¬ b.catalog.Owns m' v := by
  induction l generalizing b with
  | nil => exact .pure ⟨.refl b, .nil, by simp⟩
  | cons a l ih =>
    rw [List.mapM_cons]
    refine .bind ensures_addVar fun v t ⟨bt, own, new⟩ => ?_
    refine .bind ih fun vs u ⟨tu, apart, owns⟩ => .pure ⟨bt.trans tu, ?_, fun w hw => ?_⟩
    · exact List.nodup_cons.2 ⟨fun mem => (owns v mem).2 m own, apart⟩
    · obtain rfl | hw := List.mem_cons.1 hw
      · exact ⟨tu.owns m w own, new⟩
      · exact ⟨(owns w hw).1, fun m' old => (owns w hw).2 m' (bt.owns m' w old)⟩

/-- A new method owns the receiver and the parameters that it comes with, which are distinct. -/
theorem leaves_addMethod {ref : MethodRef} {isStatic isAbstract : Bool} (hb : b.WellScoped) :
    Leaves (addMethod ref isStatic isAbstract) b WellScoped := by
  refine .bind ensures_declarations hb ?_
  rintro _ _ ⟨rfl, rfl⟩ -
  generalize hm : b.catalog.methods.nextId = m
  have finish (receiver : Option VarId) {t : Builder} (bt : b.Keeps t)
      (own : ∀ v, receiver = some v → t.catalog.Owns m v) : Leaves (do
        let params ← ref.sub.params.zipIdx.mapM fun param => addVar m s!"p{param.2}" param.1
        let method := { ref, isStatic, isAbstract, receiver, params : MethodDecl }
        modifyCatalog fun c => { c with methods := c.methods.push method }
        return m) t WellScoped := by
    have declared : Leaves (ref.sub.params.zipIdx.mapM fun param =>
        addVar m s!"p{param.2}" param.1) t t.Keeps := .mapM (fun _ _ u tu => tu.trans leaves_addVar) (.refl t)
    refine .bind ensures_addVars (declared.wellScoped (bt.wellScoped hb))
      fun params u ⟨tu, apart, owns⟩ hu none => ?_
    refine (hu none).pushMethod ?_
    rw [tu.methods, bt.methods, hm]
    have apart : (receiver.toList ++ params).Nodup := by
      cases receiver with
      | none => exact apart
      | some this => exact List.nodup_cons.2 ⟨fun mem => (owns this mem).2 m (own this rfl), apart⟩
    exact {
      receiver := fun v hv => tu.owns m v (own v hv)
      params := fun v mem => (owns v mem).1
      apart
      returns := by simp
      body := by simp
      invokes := by simp }
  split
  · exact finish none (.refl b) (by simp)
  · refine .bind (P := fun receiver t => b.Keeps t ∧ ∀ v, receiver = some v → t.catalog.Owns m v)
      ?_ (leaves_addVar.wellScoped hb) fun receiver t ⟨bt, own⟩ _ => finish receiver bt own
    refine .map (ensures_addVar.mono fun v t ⟨bt, own, _⟩ => ⟨bt, ?_⟩)
    rintro _ ⟨⟩
    exact own

theorem leaves_addEntry {m : MethodId} : Leaves (addEntry m) b b.Keeps := by
  have same (entries : List MethodId) :
      b.Keeps { b with catalog := { b.catalog with entries } } :=
    ⟨rfl, rfl, fun _ _ => id, fun _ _ h => h, id⟩
  change b.Keeps { b with catalog :=
    if b.catalog.entries.contains m then b.catalog
    else { b.catalog with entries := b.catalog.entries ++ [m] } }
  split
  · exact .refl b
  · exact same _

theorem WellScoped.declare (hb : b.WellScoped) (d : Declaration) : (b.declare d).WellScoped := by
  cases d with
  | type => exact leaves_addType.wellScoped hb
  | array => exact leaves_arrayOf.wellScoped hb
  | field => exact fun none => (hb none).of_owns rfl rfl fun _ _ => id
  | method => exact leaves_addMethod hb
  | var => exact leaves_addVar.wellScoped hb
  | statement _ _ plain => exact leaves_add plain hb
  | call => exact leaves_addCall hb
  | dynamicCall => exact leaves_addDynamicCall hb
  | entry => exact leaves_addEntry.wellScoped hb

/-- Whatever is declared, in whatever order, the construction is well scoped. -/
theorem wellScoped_ofDeclarations (ds : List Declaration) : (ofDeclarations ds).WellScoped := by
  have run (b : Builder) (hb : b.WellScoped) : (ds.foldl Builder.declare b).WellScoped := by
    induction ds generalizing b with
    | nil => exact hb
    | cons d ds ih => exact ih _ (hb.declare d)
  exact run {} fun _ => ⟨fun _ _ h => (by cases h), fun _ _ h => (by cases h)⟩

end Builder

/-- The program that declarations construct, if they construct one. -/
def Program.ofDeclarations (ds : List Declaration) : Program :=
  (Builder.ofDeclarations ds).build.toOption.getD {}

theorem Program.build_ofDeclarations {ds : List Declaration}
    (complete : (Builder.ofDeclarations ds).build.toOption.isSome = true) :
    (Builder.ofDeclarations ds).build = .ok (.ofDeclarations ds) := by
  unfold ofDeclarations
  cases built : (Builder.ofDeclarations ds).build with
  | ok p => rfl
  | error => rw [built] at complete; cases complete

theorem Program.scoped_of_build {ds : List Declaration} {p : Program}
    (built : (Builder.ofDeclarations ds).build = .ok p) : p.toCatalog.Scoped := by
  obtain ⟨same, -, none⟩ := Builder.build_eq_ok built
  rw [same]
  exact Builder.wellScoped_ofDeclarations ds none

end PointsTo
