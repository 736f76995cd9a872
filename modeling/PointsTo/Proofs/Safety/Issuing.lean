import PointsTo.Proofs.Construction.Orderly
import PointsTo.Proofs.Safety.Loading

/-!
Declarations that mention ids only that have been issued before them never fail, so that each of them
leaves every declaration complete. The programs that come of them are therefore as well formed as those
that are loaded.
-/
namespace PointsTo

namespace Builder

variable {α β : Type} {b : Builder} {m : MethodId} {I J : Builder → Prop}

/-- The step does not fail, and what it leaves satisfies `I`. -/
abbrev Passes (f : Build α) (b : Builder) (I : Builder → Prop) : Prop :=
  Ends f b (fun _ => I) fun _ _ => False

theorem Passes.run {f : Build α} (h : Passes f b I) : ∃ a, f b = (.ok a, (f b).2) := by
  unfold Passes Ends at h
  split at h
  next a t run => exact ⟨a, by rw [run]⟩
  next => exact h.elim

/-- A step that does not fail leads to a state that satisfies what its success ensures. -/
theorem Passes.leads {f : Build α} {Q : α → Builder → Prop} (h : Passes f b I)
    (ensured : Ensures f b Q) : ∃ a, Q a (f b).2 := h.run.imp fun a run => ensured a _ run

theorem passes_forM {l : List α} {f : α → Build PUnit} (hb : I b)
    (round : ∀ a ∈ l, ∀ t, I t → Passes (f a) t I) : Passes (l.forM f) b I := by
  induction l generalizing b with
  | nil => exact hb
  | cons a l ih =>
    change Passes (f a >>= fun _ => l.forM f) b I
    exact (round a List.mem_cons_self b hb).bind fun _ t ht =>
      ih ht fun a' mem => round a' (List.mem_cons_of_mem a mem)

theorem passes_mapM {l : List α} {f : α → Build β} (hb : I b)
    (round : ∀ a ∈ l, ∀ t, I t → Passes (f a) t I) : Passes (l.mapM f) b I := by
  induction l generalizing b with
  | nil => exact hb
  | cons a l ih =>
    rw [List.mapM_cons]
    refine (round a List.mem_cons_self b hb).bind fun _ t ht => ?_
    exact (ih ht fun a' mem => round a' (List.mem_cons_of_mem a mem)).bind fun _ _ hu => hu

theorem passes_known {x : Option α} (found : ∃ a, x = some a) (hb : I b) :
    Passes (known x) b I := by
  obtain ⟨a, rfl⟩ := found
  exact hb

theorem passes_declarations :
    Ends declarations b (fun c t => b = t ∧ c = b.catalog) fun _ _ => False := ⟨rfl, rfl⟩

/-- Problems are noted beside the declarations. -/
theorem passes_note {problem : String} : Passes (note problem) b fun t => t.catalog = b.catalog := rfl

theorem passes_modifyCatalog {f : Catalog → Catalog} :
    Passes (modifyCatalog f) b fun t => t.catalog = f b.catalog := rfl

/-! ### Statements -/

section Statements

variable {s : Statement}

theorem passes_checkVars {vars : List VarId} (issued : ∀ v ∈ vars, v.index < b.catalog.vars.size) :
    Passes (checkVars m vars) b fun t => t.catalog = b.catalog := by
  refine passes_forM (I := fun t => t.catalog = b.catalog) rfl fun v mem t same => ?_
  have found : ∃ d, t.catalog.vars[v]? = some d := same ▸ Roster.exists_getElem? (issued v mem)
  refine (passes_known (I := (t = ·)) found rfl).bind ?_
  rintro d _ rfl
  split
  · exact passes_note.mono (fun _ _ => same ▸ id) fun _ _ => id
  · exact same

theorem passes_checkField {f : FieldId} {isStatic : Bool} (issued : f.index < b.catalog.fields.size) :
    Passes (checkField f isStatic) b fun t => t.catalog = b.catalog := by
  refine (passes_known (I := (b = ·)) (Roster.exists_getElem? issued) rfl).bind ?_
  rintro d _ rfl
  dsimp only
  split
  · exact passes_note
  · exact rfl

theorem passes_modifyMethod {f : MethodDecl → MethodDecl}
    (issued : m.index < b.catalog.methods.size) :
    Passes (modifyMethod m f) b fun t => t.catalog.methods.size = b.catalog.methods.size := by
  obtain ⟨d, hd⟩ := Roster.exists_getElem? issued
  unfold Passes Ends
  rw [modifyMethod_run hd]
  exact Roster.size_modify

theorem passes_addStatement (issued : m.index < b.catalog.methods.size) :
    Passes (addStatement m s) b fun _ => True := by
  obtain ⟨d, hd⟩ := Roster.exists_getElem? issued
  obtain ⟨noted, -, run⟩ := addStatement_run (s := s) hd
  unfold Passes Ends
  rw [run]
  trivial

theorem passes_add (method : m.index < b.catalog.methods.size) (typed : b.catalog.Typed s)
    (issued : ∀ v ∈ mentioned s, v.index < b.catalog.vars.size) :
    Passes (add m s) b fun _ => True := by
  refine (passes_checkVars issued).bind fun _ t same => ?_
  rw [← same] at method typed
  have checked {f : FieldId} {isStatic : Bool} (accesses : accessed? s = some (f, isStatic)) :
      Passes (checkField f isStatic >>= fun _ => addStatement m s) t fun _ => True :=
    (passes_checkField (typed.field f isStatic accesses)).bind fun _ u kept =>
      passes_addStatement (kept ▸ method)
  cases s with
  | loadField | storeField | loadStatic | storeStatic => exact checked rfl
  | new | assign | cast | loadArray | storeArray | invoke => exact passes_addStatement method
  | ret var =>
    cases var with
    | none => exact passes_addStatement method
    | some v =>
      exact (passes_modifyMethod method).bind fun _ u size => passes_addStatement (size ▸ method)

theorem passes_addCall {kind : CallKind} {target : MethodRef} {base : Option VarId}
    {args : List VarId} {result : Option VarId} (method : m.index < b.catalog.methods.size)
    (issued : ∀ v ∈ args ++ base.toList ++ result.toList, v.index < b.catalog.vars.size) :
    Passes (addCall m kind target base args result) b fun _ => True := by
  refine (passes_checkVars issued).bind fun _ t same => ?_
  rw [← same] at method
  have push {u : Builder} (kept : u.catalog = t.catalog) : Passes (do
        let sites := (← declarations).callSites
        let index := sites.toList.countP (·.container == m)
        modifyCatalog fun c =>
          { c with callSites := c.callSites.push (CallSite.mk m index kind target base args result) }
        addStatement m (.invoke sites.nextId)
        return sites.nextId) u fun _ => True := by
    refine passes_declarations.bind ?_
    rintro _ _ ⟨rfl, rfl⟩
    refine passes_modifyCatalog.bind fun _ v pushed => ?_
    refine (passes_addStatement ?_).bind fun _ _ _ => trivial
    rw [pushed, kept]
    exact method
  dsimp only
  split
  · exact passes_note.bind fun _ u kept => push kept
  · exact push rfl

theorem passes_addDynamicCall {call : DynamicCall} {name : String} {type : Option TypeId}
    {captured : List VarId} {result : Option VarId} (method : m.index < b.catalog.methods.size)
    (issued : ∀ v ∈ captured ++ result.toList, v.index < b.catalog.vars.size) :
    Passes (addDynamicCall m call name type captured result) b fun _ => True := by
  refine (passes_known (I := (b = ·)) (Roster.exists_getElem? method) rfl).bind ?_
  rintro d _ rfl
  refine passes_declarations.bind ?_
  rintro _ _ ⟨rfl, rfl⟩
  refine (passes_mapM (I := (b = ·)) rfl fun v mem t same => ?_).bind ?_
  · refine passes_known ?_ same
    obtain ⟨d, hd⟩ := Roster.exists_getElem? (issued v (List.mem_append_left _ mem))
    exact ⟨d.type, by rw [hd]; rfl⟩
  · rintro types _ rfl
    exact passes_addCall method (by simpa using issued)

end Statements

/-! ### Declarations -/

theorem passes_addType {name : String} {form : TypeForm} :
    Passes (addType name form) b fun _ => True := by
  refine passes_declarations.bind ?_
  rintro _ _ ⟨rfl, rfl⟩
  refine passes_modifyCatalog.bind fun _ t _ => ?_
  dsimp only
  split <;> trivial

theorem passes_arrayOf {elem : TypeId} (issued : elem.index < b.catalog.types.size) :
    Passes (arrayOf elem) b fun _ => True :=
  (passes_known (I := fun _ => True) (Catalog.typeName?_of_lt issued) trivial).bind fun _ _ _ =>
    passes_addType

theorem passes_addField {owner type : TypeId} {name : String} {isStatic : Bool} :
    Passes (addField owner name type isStatic) b fun _ => True := trivial

theorem passes_addEntry : Passes (addEntry m) b fun _ => True := trivial

theorem passes_addVar {name : String} {type : TypeId} :
    Passes (addVar m name type) b fun _ => True := trivial

theorem passes_addMethod {ref : MethodRef} {isStatic isAbstract : Bool} :
    Passes (addMethod ref isStatic isAbstract) b fun _ => True := by
  have finish (id : MethodId) (receiver : Option VarId) (t : Builder) : Passes (do
      let params ← ref.sub.params.zipIdx.mapM fun param => addVar id s!"p{param.2}" param.1
      let method := { ref, isStatic, isAbstract, receiver, params : MethodDecl }
      modifyCatalog fun c => { c with methods := c.methods.push method }
      return id) t fun _ => True :=
    (passes_mapM (I := fun _ => True) trivial fun _ _ _ _ => passes_addVar).bind fun _ _ _ => trivial
  refine Ends.bind (P := fun _ _ => True) trivial fun c t _ => ?_
  dsimp only
  split
  · exact finish _ none t
  · exact Ends.bind (P := fun _ _ => True) trivial fun receiver u _ => finish _ receiver u

/-- A declaration that mentions issued ids leaves every declaration complete. -/
theorem builds_declare {d : Declaration} (knows : b.catalog.Knows d) (complete : b.catalog.Sealed) :
    b.Builds (b.declare d) := by
  cases d with
  | type name form =>
    obtain ⟨_, builds, -⟩ := passes_addType.leads ensures_addType
    exact builds
  | array elem =>
    obtain ⟨_, builds, -⟩ := (passes_arrayOf knows).leads ensures_arrayOf
    exact builds
  | field owner name type isStatic =>
    obtain ⟨_, builds⟩ := passes_addField.leads ensures_addField
    exact builds
  | method ref isStatic isAbstract =>
    obtain ⟨_, builds, -⟩ := passes_addMethod.leads (ensures_addMethod knows)
    exact builds
  | var m name type =>
    obtain ⟨_, builds⟩ := passes_addVar.leads (builds_addVar knows.2)
    exact builds
  | statement m s plain =>
    obtain ⟨method, typed, vars⟩ := knows
    obtain ⟨_, builds⟩ := (passes_add method typed vars).leads (ensures_add plain typed.types)
    exact builds
  | call m kind target base args result =>
    obtain ⟨method, target, handles, vars⟩ := knows
    have spelled : ∀ bootstrap handle, kind = .dynamic ⟨bootstrap, some handle⟩ →
        b.catalog.Spells handle.target := by
      rintro bootstrap handle rfl
      exact handles handle List.mem_cons_self
    obtain ⟨_, builds⟩ := (passes_addCall method vars).leads (ensures_addCall method target spelled)
    exact builds
  | dynamicCall m call name type captured result =>
    obtain ⟨method, handles, types, vars⟩ := knows
    obtain ⟨_, builds⟩ := (passes_addDynamicCall method vars).leads
      (ensures_addDynamicCall complete (fun t ht => types t (Option.mem_toList.2 ht))
        fun handle eq => handles handle (Option.mem_toList.2 eq))
    exact builds
  | entry m =>
    obtain ⟨_, builds⟩ := passes_addEntry.leads (ensures_addEntry knows)
    exact builds

/-- Declarations that mention issued ids are complete. -/
theorem sealed_ofDeclarations {ds : List Declaration} (issued : Issues {} ds) :
    (ofDeclarations ds).catalog.Sealed := by
  have run (ds : List Declaration) (b : Builder) (hb : b.catalog.Sealed) (issued : b.Issues ds) :
      (ds.foldl declare b).catalog.Sealed := by
    induction ds generalizing b with
    | nil => exact hb
    | cons d ds ih => exact ih _ ((builds_declare issued.1 hb).complete hb) issued.2
  exact run ds {} Catalog.sealed_empty issued

end Builder

namespace Program

variable {p : Program}

/-- Programs that are given to an analysis: they are constructed from declarations that mention ids
only that have been issued, or loaded from a description. -/
inductive Arises (p : Program) : Prop
  | declared {ds : List Declaration} (issued : Builder.Issues {} ds)
    (built : (Builder.ofDeclarations ds).build = .ok p)
  | loaded {d : Description} (accepted : d.assemble.result = .ok p)

/-- However a program arises, an analysis can rely on it. -/
theorem Arises.wellFormed (h : p.Arises) : p.WellFormed := by
  cases h with
  | loaded accepted => exact Description.wellFormed_of_assemble accepted
  | declared issued built =>
    have owned := scoped_of_build built
    obtain ⟨same, -, -⟩ := Builder.build_eq_ok built
    exact .of_build built (Builder.sealed_ofDeclarations issued) (same ▸ owned)

end Program
end PointsTo
