import PointsTo.Program.Assembly
import PointsTo.Proofs.Safety.Construction

/-!
Programs that are described are constructed from declared things only, so that those that are
accepted are well formed.
-/
namespace PointsTo.Description

open Builder

variable {α : Type} {b t : Builder}

/-! ### Lookups -/

theorem builds_declarations : Relates Builds declarations :=
  .of_same fun _ => ensures_declarations.mono fun _ _ => And.left

theorem builds_known {x : Option α} : Relates Builds (known x) :=
  .of_same fun _ => ensures_known.mono fun _ _ => And.left

theorem builds_lift {x : Except Fault α} : Relates Builds (liftM x : Build α) := by
  refine .of_same fun b a t run => ?_
  cases x with
  | ok => exact congrArg Prod.snd run
  | error => cases run

theorem relates_option {α β : Type} {f : α → Build β} {o : Option α}
    (h : ∀ a, o = some a → Relates Builds (f a)) : Relates Builds (o.mapM f) := by
  cases o with
  | none => exact .pure
  | some a => exact .bind (h a rfl) fun _ => .pure

/-! ### Types -/

/-- A class is declared after its super types. -/
theorem builds_declareClass (d : Description) (unopened : List String) (name : String) :
    Relates Builds (declareClass d unopened name) := by
  induction n : unopened.length using Nat.strongRecOn generalizing unopened name with
  | ind n ih =>
    subst n
    have addType (name : String) (form : TypeForm) : Relates Builds (addType name form) :=
      fun _ => ensures_addType.mono fun _ _ => And.left
    rw [declareClass]
    refine .bind builds_declarations fun c => ?_
    split
    · exact .pure
    · split
      · exact addType _ _
      · split
        next mem =>
          have shorter (name' : String) :
              Relates Builds (declareClass d (unopened.erase name) name') := by
            refine ih _ ?_ _ _ rfl
            have := List.length_erase_of_mem mem
            have := List.length_pos_of_mem mem
            omega
          refine .bind (relates_option fun s _ => shorter s) fun superclass => ?_
          refine .bind (.mapM fun i _ => shorter i) fun interfaces => ?_
          split
          · exact addType _ _
          · split
            · exact addType _ _
            · exact addType _ _
        next => exact .throw

theorem ensures_resolveType (name : List Char) :
    Ensures (resolveType name) b fun id t => b.Builds t ∧ id.index < t.catalog.types.size := by
  induction n : name.length using Nat.strongRecOn generalizing name b with
  | ind n ih =>
    subst n
    rw [resolveType]
    split
    next elem h =>
      have shorter : elem.length < name.length := by
        have h := congrArg List.length (Text.before?_eq_some_iff.1 h)
        have := length_trim_le name
        simp only [List.length_append, List.length_cons, List.length_nil] at h
        omega
      refine .bind (ih _ shorter elem rfl) fun id t builds => ?_
      exact ensures_arrayOf.mono fun _ _ h => h.imp_left (trans_of Builds builds.1)
    next =>
      dsimp only
      split
      · exact ensures_addType
      · split
        · exact ensures_addType
        · refine .bind ensures_declarations ?_
          rintro _ _ ⟨rfl, rfl⟩
          split
          next id found => exact .pure ⟨refl_of Builds b, Table.lt_size_of_find? found⟩
          next => exact .throw

theorem ensures_typeNamed {name : String} :
    Ensures (typeNamed name) b fun id t => b.Builds t ∧ id.index < t.catalog.types.size :=
  ensures_resolveType _

theorem ensures_typesNamed {names : List String} :
    Ensures (names.mapM typeNamed) b fun ids t =>
      b.Builds t ∧ ∀ id ∈ ids, id.index < t.catalog.types.size :=
  .mapM (D := fun (id : TypeId) t => id.index < t.catalog.types.size)
    (fun _ t _ => refl_of Builds t) (fun _ _ _ => trans_of Builds)
    (fun _ _ _ h lt => Nat.lt_of_lt_of_le lt h.types) (refl_of Builds b) fun _ _ _ _ =>
      ensures_typeNamed

theorem ensures_resultNamed {name : String} :
    Ensures (resultNamed name) b fun result t =>
      b.Builds t ∧ ∀ id, result = some id → id.index < t.catalog.types.size := by
  unfold resultNamed
  split
  · exact .pure ⟨refl_of Builds b, by simp⟩
  · exact .map (ensures_typeNamed.mono fun id t ⟨bt, known⟩ => ⟨bt, by rintro _ ⟨⟩; exact known⟩)

/-- A method is named by types that exist. -/
theorem ensures_refNamed {text : String} :
    Ensures (refNamed text) b fun ref t => b.Builds t ∧ t.catalog.Spells ref := by
  refine .bind (builds_lift b) fun s t bt => ?_
  refine .bind ensures_typeNamed fun owner u ⟨tu, ho⟩ => ?_
  refine .bind ensures_typesNamed fun params v ⟨uv, hp⟩ => ?_
  have result : Ensures (s.result.mapM typeNamed) v fun result w =>
      v.Builds w ∧ ∀ id, result = some id → id.index < w.catalog.types.size := by
    cases s.result with
    | none => exact .pure ⟨refl_of Builds v, by simp⟩
    | some name =>
      exact .map (ensures_typeNamed.mono fun id w ⟨vw, known⟩ =>
        ⟨vw, by rintro _ ⟨⟩; exact known⟩)
  refine .bind result fun result w ⟨vw, hr⟩ => .pure ⟨?_, ?_, ?_, hr⟩
  · exact trans_of Builds (trans_of Builds bt tu) (trans_of Builds uv vw)
  · exact Nat.lt_of_lt_of_le ho (trans_of Builds uv vw).types
  · exact fun t ht => Nat.lt_of_lt_of_le (hp t ht) vw.types

theorem builds_fieldNamed {text : String} : Relates Builds (fieldNamed text) := by
  unfold fieldNamed
  split
  · exact .throw
  · refine .bind (fun _ => (ensures_resolveType _).mono fun _ _ => And.left) fun owner => ?_
    refine .bind (.bind builds_declarations fun c => ?_) fun field => ?_
    · dsimp only
      split
      · exact .pure
      · split
        · exact .pure
        · exact .throw
    · split
      · exact .pure
      · exact .throw

/-! ### Methods -/

theorem builds_varNamed {m : Method} {scope : Scope} {name : String} :
    Relates Builds (varNamed m scope name) := by
  unfold varNamed
  split
  · exact .pure
  · exact .throw

theorem builds_declareVars {id : MethodId} {m : Method} : Relates Builds (declareVars id m) := by
  refine .bind (.bind builds_declarations fun _ => builds_known) fun decl => ?_
  refine .foldlM fun var _ scope b => ?_
  refine .bind ensures_typeNamed fun type t ⟨bt, known⟩ => ?_
  refine .bind (builds_addVar known) fun v u tu => ?_
  have bu := trans_of Builds bt tu
  split
  · exact .bind (P := fun _ _ => False) .throw fun _ _ => False.elim
  · exact .pure bu

/-- Statements are added once whatever they mention is declared. -/
theorem ensures_addDescribed {id : MethodId} {m : Method} {scope : Scope} (s : Statement)
    (complete : b.catalog.Sealed) (container : id.index < b.catalog.methods.size) :
    Ensures (addDescribed id m scope s) b fun _ => b.Builds := by
  have var (name : String) : Relates Builds (varNamed m scope name) := builds_varNamed
  have vars (names : List String) : Relates Builds (names.mapM (varNamed m scope)) :=
    .mapM fun name _ => var name
  have maybe (name : Option String) : Relates Builds (name.mapM (varNamed m scope)) :=
    relates_option fun name _ => var name
  -- statements that mention no type may be added at any time
  have untyped {s : PointsTo.Statement} (plain : ∀ site, s ≠ .invoke site) (none : s.types = []) :
      Relates Builds (add id s) := fun _ => ensures_add plain (by simp [none])
  have typed {t : Builder} {type : TypeId} (known : type.index < t.catalog.types.size)
      {s : PointsTo.Statement} (plain : ∀ site, s ≠ .invoke site) (one : s.types = [type])
      {u : Builder} (tu : t.Builds u) : Ensures (add id s) u fun _ => u.Builds := by
    refine ensures_add plain fun type' mem => ?_
    rw [one, List.mem_singleton] at mem
    exact mem ▸ Nat.lt_of_lt_of_le known tu.types
  cases s with
  | new lhs type =>
    refine .bind ensures_typeNamed fun type t ⟨bt, known⟩ => ?_
    refine .bind (var lhs t) fun lhs u tu => ?_
    exact (typed known (by simp) rfl tu).mono fun _ _ => trans_of Builds (trans_of Builds bt tu)
  | cast lhs rhs type =>
    refine .bind ensures_typeNamed fun type t ⟨bt, known⟩ => ?_
    refine .bind (var lhs t) fun lhs u tu => .bind (var rhs u) fun rhs v uv => ?_
    have tv := trans_of Builds tu uv
    exact (typed known (by simp) rfl tv).mono fun _ _ => trans_of Builds (trans_of Builds bt tv)
  | assign lhs rhs =>
    exact Relates.bind (var lhs) (fun _ => .bind (var rhs) fun _ => untyped (by simp) rfl) b
  | load lhs base field =>
    exact Relates.bind builds_fieldNamed (fun _ => .bind (var lhs) fun _ => .bind (var base)
      fun _ => untyped (by simp) rfl) b
  | store base field rhs =>
    exact Relates.bind builds_fieldNamed (fun _ => .bind (var base) fun _ => .bind (var rhs)
      fun _ => untyped (by simp) rfl) b
  | loadStatic lhs field =>
    exact Relates.bind builds_fieldNamed (fun _ => .bind (var lhs) fun _ =>
      untyped (by simp) rfl) b
  | storeStatic field rhs =>
    exact Relates.bind builds_fieldNamed (fun _ => .bind (var rhs) fun _ =>
      untyped (by simp) rfl) b
  | loadArray lhs base =>
    exact Relates.bind (var lhs) (fun _ => .bind (var base) fun _ => untyped (by simp) rfl) b
  | storeArray base rhs =>
    exact Relates.bind (var base) (fun _ => .bind (var rhs) fun _ => untyped (by simp) rfl) b
  | ret v => exact Relates.bind (maybe v) (fun _ => untyped (by simp) rfl) b
  | invoke kind target base args result =>
    refine .bind ensures_refNamed fun target t ⟨bt, known⟩ => ?_
    refine .bind (maybe base t) fun base u tu => ?_
    refine .bind (vars args u) fun args v uv => ?_
    refine .bind (maybe result v) fun result w vw => ?_
    have tw := trans_of Builds (trans_of Builds tu uv) vw
    have bw := trans_of Builds bt tw
    refine .bind (P := fun _ => b.Builds) ?_ fun _ _ done => .pure done
    refine (ensures_addCall (Nat.lt_of_lt_of_le container bw.methods) (known.mono tw.types) ?_).mono
      fun _ _ => trans_of Builds bw
    cases kind <;> simp [callKind]
  | invokeDynamic bootstrap name ret handle args result =>
    have named : Ensures (handle.mapM fun h => do return ⟨h.kind, ← refNamed h.method⟩) b
        fun (handle : Option MethodHandle) t =>
          b.Builds t ∧ ∀ h, handle = some h → t.catalog.Spells h.target := by
      cases handle with
      | none => exact .pure ⟨refl_of Builds b, by simp⟩
      | some h =>
        refine .map (.bind ensures_refNamed fun ref t ⟨bt, known⟩ => .pure ⟨bt, ?_⟩)
        rintro _ ⟨⟩
        exact known
    refine .bind named fun handle t ⟨bt, spells⟩ => ?_
    refine .bind ensures_resultNamed fun type u ⟨tu, known⟩ => ?_
    refine .bind (vars args u) fun args v uv => .bind (maybe result v) fun result w vw => ?_
    have uw := trans_of Builds uv vw
    have bw := trans_of Builds (trans_of Builds bt tu) uw
    refine .bind (P := fun _ => b.Builds) ?_ fun _ _ done => .pure done
    refine (ensures_addDynamicCall (bw.complete complete) (fun t ht => ?_) fun h hh => ?_).mono
      fun _ _ => trans_of Builds bw
    · exact Nat.lt_of_lt_of_le (known t ht) uw.types
    · exact (spells h hh).mono (trans_of Builds tu uw).types

theorem ensures_declareMethod {owner : TypeId} {m : Method}
    (known : owner.index < b.catalog.types.size) :
    Ensures (declareMethod owner m) b fun id t =>
      b.Builds t ∧ id.index < t.catalog.methods.size := by
  refine .bind ensures_typesNamed fun params t ⟨bt, hp⟩ => ?_
  refine .bind ensures_resultNamed fun result u ⟨tu, hr⟩ => ?_
  have bu := trans_of Builds bt tu
  refine (ensures_addMethod ⟨Nat.lt_of_lt_of_le known bu.types, ?_, hr⟩).mono ?_
  · exact fun t ht => Nat.lt_of_lt_of_le (hp t ht) tu.types
  · exact fun _ _ ⟨uv, lt⟩ => ⟨trans_of Builds bu uv, lt⟩

/-! ### Programs -/

/-- The methods of a class are declared before their bodies are added. -/
theorem ensures_declareMembers (c : Class) :
    Ensures (declareMembers c) b fun bodies t =>
      b.Builds t ∧ ∀ body ∈ bodies, body.1.index < t.catalog.methods.size := by
  refine .bind ensures_typeNamed fun owner t ⟨bt, known⟩ => ?_
  have fields : Relates Builds (c.fields.forM fun f => do
      let type ← typeNamed f.type
      let _ ← addField owner f.name type f.isStatic) :=
    .forM fun f _ => .bind (fun _ => ensures_typeNamed.mono fun _ _ => And.left) fun _ =>
      .bind (fun _ => ensures_addField) fun _ => .pure
  refine .bind (fields t) fun _ u tu => ?_
  refine (Ensures.mapM (R := Builds)
    (D := fun (body : MethodId × Method) t => body.1.index < t.catalog.methods.size)
    (fun _ t _ => refl_of Builds t) (fun _ _ _ => trans_of Builds)
    (fun _ _ _ h lt => Nat.lt_of_lt_of_le lt h.methods) (refl_of Builds u)
    fun m _ v uv => .bind (ensures_declareMethod ?_) fun _ _ done => .pure done).mono ?_
  · exact Nat.lt_of_lt_of_le known (trans_of Builds tu uv).types
  · exact fun _ _ ⟨uv, lt⟩ => ⟨trans_of Builds (trans_of Builds bt tu) uv, lt⟩

theorem ensures_addBody {id : MethodId} {m : Method} (complete : b.catalog.Sealed)
    (known : id.index < b.catalog.methods.size) : Ensures (addBody id m) b fun _ => b.Builds := by
  refine .bind (builds_declareVars b) fun scope t bt => ?_
  refine (Ensures.forM (R := Builds) (D := fun _ _ => True)
    (fun _ t _ => refl_of Builds t) (fun _ _ _ => trans_of Builds) (fun _ _ _ _ h => h)
    (refl_of Builds t) fun s _ u tu => ?_).mono fun _ _ h => trans_of Builds bt h.1
  have bu := trans_of Builds bt tu
  exact (ensures_addDescribed s (bu.complete complete)
    (Nat.lt_of_lt_of_le known bu.methods)).mono fun _ _ h => ⟨h, trivial⟩

theorem ensures_addEntryNamed {text : String} :
    Ensures (addEntryNamed text) b fun _ => b.Builds := by
  refine .bind ensures_refNamed fun ref t ⟨bt, _⟩ => ?_
  refine .bind ensures_declarations ?_
  rintro _ _ ⟨rfl, rfl⟩
  split
  next id found =>
    exact (ensures_addEntry (Roster.lt_size_of_find? found)).mono fun _ _ => trans_of Builds bt
  next => exact .throw

/-- Everything that is described mentions declared things only. -/
theorem ensures_declareAll (d : Description) (complete : b.catalog.Sealed) :
    Ensures (declareAll d) b fun _ => b.Builds := by
  have classes : Relates Builds (d.classes.forM fun c => do
      let _ ← declareClass d (d.classes.map Class.name).eraseDups c.name) :=
    .forM fun c _ => .bind (builds_declareClass d _ _) fun _ => .pure
  refine .bind (classes b) fun _ t bt => ?_
  refine .bind (.mapM (R := Builds)
    (D := fun (bodies : List (MethodId × Method)) t =>
      ∀ body ∈ bodies, body.1.index < t.catalog.methods.size)
    (fun _ t _ => refl_of Builds t) (fun _ _ _ => trans_of Builds)
    (fun _ _ _ h lt body mem => Nat.lt_of_lt_of_le (lt body mem) h.methods) (refl_of Builds t)
    fun c _ u _ => ensures_declareMembers c) ?_
  rintro bodies u ⟨tu, known⟩
  have bu := trans_of Builds bt tu
  refine .bind (Ensures.forM (R := Builds) (D := fun _ _ => True)
    (fun _ t _ => refl_of Builds t) (fun _ _ _ => trans_of Builds) (fun _ _ _ _ => id)
    (refl_of Builds u) fun ⟨id, m⟩ mem v uv => ?_) ?_
  · obtain ⟨l, hl, mem⟩ := List.mem_flatten.1 mem
    have bv := trans_of Builds bu uv
    exact (ensures_addBody (bv.complete complete)
      (Nat.lt_of_lt_of_le (known l hl _ mem) uv.methods)).mono fun _ _ h => ⟨h, trivial⟩
  · rintro _ v ⟨uv, -⟩
    refine (Relates.forM (fun text _ b => ensures_addEntryNamed) v).mono fun _ _ => ?_
    exact trans_of Builds (trans_of Builds bu uv)

/-- A program that is accepted is well formed. -/
theorem wellFormed_of_assemble {d : Description} {p : Program}
    (accepted : d.assemble.result = .ok p) : p.WellFormed := by
  unfold assemble at accepted
  split at accepted
  · cases accepted
  next b run =>
    change b.build = .ok p at accepted
    have built := ensures_declareAll d Catalog.sealed_empty _ _ run
    obtain ⟨-, -, none⟩ := Builder.build_eq_ok accepted
    exact .of_build accepted (built.complete Catalog.sealed_empty)
      (built.wellScoped (wellScoped_ofDeclarations []) none)

end PointsTo.Description
