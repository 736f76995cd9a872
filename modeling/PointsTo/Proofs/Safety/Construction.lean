import PointsTo.Proofs.Safety.Programs

/-!
Steps of a construction that are given declared things keep every declaration complete: it mentions
declared things only.
-/
namespace PointsTo

namespace Table

variable {ε κ : Type} [Coded κ] {kind : Entity} {key : ε → κ} {t : Table kind key} {e : ε}

theorem size_le_size_intern : t.size ≤ (t.intern e).2.size := by
  unfold intern
  split
  · exact Nat.le_refl _
  · simp [size, push]

theorem lt_size_intern : (t.intern e).1.index < (t.intern e).2.size := by
  obtain ⟨-, ⟨a, ha, -⟩, -⟩ := t.intern_spec e
  exact lt_size ha

end Table

namespace Roster

variable {kind : Entity} {α : Type} {r : Roster kind α}

theorem size_push {a : α} : (r.push a).size = r.size + 1 := Array.size_push ..

theorem size_modify {i : Id kind} {f : α → α} : (r.modify i f).size = r.size := Array.size_modify

theorem lt_size_of_find? {p : α → Bool} {i : Id kind} (h : r.find? p = some i) :
    i.index < r.size := by
  obtain ⟨n, hn, rfl⟩ := Option.map_eq_some_iff.1 h
  exact (Array.findIdx?_eq_some_iff_getElem.1 hn).1

end Roster

namespace Catalog

variable {c c' : Catalog} {r : MethodRef} {s : Statement}

theorem Spells.mono (h : c.Spells r) (le : c.types.size ≤ c'.types.size) : c'.Spells r where
  owner := Nat.lt_of_lt_of_le h.owner le
  params t ht := Nat.lt_of_lt_of_le (h.params t ht) le
  result t ht := Nat.lt_of_lt_of_le (h.result t ht) le

theorem Typed.mono (h : c.Typed s) (types : c.types.size ≤ c'.types.size)
    (fields : c.fields.size ≤ c'.fields.size) : c'.Typed s where
  types t ht := Nat.lt_of_lt_of_le (h.types t ht) types
  field f isStatic hf := Nat.lt_of_lt_of_le (h.field f isStatic hf) fields

theorem SealedMethod.mono {d : MethodDecl} (h : c.SealedMethod d)
    (types : c.types.size ≤ c'.types.size) (fields : c.fields.size ≤ c'.fields.size) :
    c'.SealedMethod d where
  ref := h.ref.mono types
  body s hs := (h.body s hs).mono types fields

theorem SealedSite.mono {d : CallSite} (h : c.SealedSite d)
    (types : c.types.size ≤ c'.types.size) (methods : c.methods.size ≤ c'.methods.size) :
    c'.SealedSite d where
  container := Nat.lt_of_lt_of_le h.container methods
  target := h.target.mono types
  handle bootstrap handle hk := (h.handle bootstrap handle hk).mono types

/-- From `c` to `c'`, declarations are added that mention declared things only. -/
structure Secures (c c' : Catalog) : Prop where
  types : c.types.size ≤ c'.types.size
  fields : c.fields.size ≤ c'.fields.size
  methods : c.methods.size ≤ c'.methods.size
  complete : c.Sealed → c'.Sealed

namespace Secures

theorem refl (c : Catalog) : c.Secures c :=
  ⟨Nat.le_refl _, Nat.le_refl _, Nat.le_refl _, id⟩

theorem trans {c'' : Catalog} (h : c.Secures c') (h' : c'.Secures c'') : c.Secures c'' where
  types := Nat.le_trans h.types h'.types
  fields := Nat.le_trans h.fields h'.fields
  methods := Nat.le_trans h.methods h'.methods
  complete := h'.complete ∘ h.complete

/-- It is enough that each declaration is an old one, or mentions declared things only. -/
theorem of_new (types : c.types.size ≤ c'.types.size) (fields : c.fields.size ≤ c'.fields.size)
    (methods : c.methods.size ≤ c'.methods.size)
    (var : ∀ (v : VarId) d, c'.vars[v]? = some d →
      c.vars[v]? = some d ∨ d.type.index < c'.types.size)
    (method : ∀ (m : MethodId) d, c'.methods[m]? = some d →
      c.methods[m]? = some d ∨ (c.Sealed → c'.SealedMethod d))
    (site : ∀ (s : CallSiteId) d, c'.callSites[s]? = some d →
      c.callSites[s]? = some d ∨ c'.SealedSite d)
    (entry : ∀ m ∈ c'.entries, m ∈ c.entries ∨ m.index < c'.methods.size) : c.Secures c' where
  types := types
  fields := fields
  methods := methods
  complete h :=
    { vars := fun v d hd => (var v d hd).elim
        (fun old => Nat.lt_of_lt_of_le (h.vars v d old) types) id
      methods := fun m d hd => (method m d hd).elim
        (fun old => (h.methods m d old).mono types fields) (· h)
      sites := fun s d hd => (site s d hd).elim (fun old => (h.sites s d old).mono types methods) id
      entries := fun m hm => (entry m hm).elim
        (fun old => Nat.lt_of_lt_of_le (h.entries m old) methods) id }

theorem withTypes {types : Table .type TypeDecl.name} (le : c.types.size ≤ types.size) :
    c.Secures { c with types } :=
  of_new le (Nat.le_refl _) (Nat.le_refl _) (fun _ _ => .inl) (fun _ _ => .inl) (fun _ _ => .inl)
    fun _ => .inl

theorem pushField {d : FieldDecl} : c.Secures { c with fields := c.fields.push d } :=
  of_new (Nat.le_refl _) (Roster.size_push ▸ Nat.le_succ _) (Nat.le_refl _) (fun _ _ => .inl)
    (fun _ _ => .inl) (fun _ _ => .inl) fun _ => .inl

theorem pushVar {d : VarDecl} (known : d.type.index < c.types.size) :
    c.Secures { c with vars := c.vars.push d } := by
  refine of_new (Nat.le_refl _) (Nat.le_refl _) (Nat.le_refl _) (fun v a ha => ?_)
    (fun _ _ => .inl) (fun _ _ => .inl) fun _ => .inl
  rw [Roster.getElem?_push] at ha
  split at ha
  · cases ha
    exact .inr known
  · exact .inl ha

theorem pushMethod {d : MethodDecl} (known : c.SealedMethod d) :
    c.Secures { c with methods := c.methods.push d } := by
  have le : c.methods.size ≤ (c.methods.push d).size := Roster.size_push ▸ Nat.le_succ _
  refine of_new (Nat.le_refl _) (Nat.le_refl _) le (fun _ _ => .inl) (fun m a ha => ?_)
    (fun _ _ => .inl) fun _ => .inl
  rw [Roster.getElem?_push] at ha
  split at ha
  · cases ha
    exact .inr fun _ => known.mono (Nat.le_refl _) (Nat.le_refl _)
  · exact .inl ha

theorem modifyMethod {m : MethodId} {f : MethodDecl → MethodDecl}
    (keep : ∀ d, c.SealedMethod d → c.SealedMethod (f d)) :
    c.Secures { c with methods := c.methods.modify m f } := by
  refine of_new (Nat.le_refl _) (Nat.le_refl _) (Nat.le_of_eq Roster.size_modify.symm)
    (fun _ _ => .inl) (fun m' d hd => ?_) (fun _ _ => .inl) fun _ => .inl
  rw [Roster.getElem?_modify] at hd
  split at hd
  · obtain ⟨d', hd', rfl⟩ := Option.map_eq_some_iff.1 hd
    exact .inr fun h => (keep d' (h.methods _ d' hd')).mono (Nat.le_refl _) (Nat.le_refl _)
  · exact .inl hd

theorem pushSite {d : CallSite} (known : c.SealedSite d) :
    c.Secures { c with callSites := c.callSites.push d } := by
  refine of_new (Nat.le_refl _) (Nat.le_refl _) (Nat.le_refl _) (fun _ _ => .inl)
    (fun _ _ => .inl) (fun s a ha => ?_) fun _ => .inl
  rw [Roster.getElem?_push] at ha
  split at ha
  · cases ha
    exact .inr (known.mono (Nat.le_refl _) (Nat.le_refl _))
  · exact .inl ha

theorem pushEntry {m : MethodId} (known : m.index < c.methods.size) :
    c.Secures { c with entries := c.entries ++ [m] } := by
  refine of_new (Nat.le_refl _) (Nat.le_refl _) (Nat.le_refl _) (fun _ _ => .inl)
    (fun _ _ => .inl) (fun _ _ => .inl) fun n hn => ?_
  obtain old | new := List.mem_append.1 hn
  · exact .inl old
  · cases List.mem_singleton.1 new
    exact .inr known

end Secures
end Catalog

namespace Builder

variable {b : Builder}

/-- From `b` to `b'`, declarations are added that mention declared things only, and the construction
stays well scoped. -/
structure Builds (b b' : Builder) : Prop extends b.catalog.Secures b'.catalog where
  wellScoped : b.WellScoped → b'.WellScoped

instance : IsPreorder Builder Builds where
  refl _ := ⟨.refl _, id⟩
  trans _ _ _ h h' := ⟨h.toSecures.trans h'.toSecures, h'.wellScoped ∘ h.wellScoped⟩

/-- What a step leaves well scoped in any case, it leaves so when it succeeds. -/
theorem ensures_builds {α : Type} {f : Build α} {Q : α → Builder → Prop}
    (secures : Ensures f b fun a t => b.catalog.Secures t.catalog ∧ Q a t)
    (leaves : b.WellScoped → Leaves f b WellScoped) : Ensures f b fun a t => b.Builds t ∧ Q a t :=
  fun a t run => ⟨⟨(secures a t run).1, fun hb => (leaves hb).ensures a t run⟩, (secures a t run).2⟩

/-! ### Steps of a construction -/

theorem catalog_note {text : String} :
    Ensures (note text) b fun _ t => t.catalog = b.catalog := .modify rfl

theorem catalog_checkVars {m : MethodId} {vars : List VarId} :
    Ensures (checkVars m vars) b fun _ t => t.catalog = b.catalog := by
  refine (Ensures.forM (R := fun (b t : Builder) => t.catalog = b.catalog) (D := fun _ _ => True)
    (fun _ _ _ => rfl) (fun _ _ _ h h' => Eq.trans h' h) (fun _ _ _ _ => id) rfl
    fun v _ t _ => ?_).mono fun _ _ => And.left
  refine .bind ensures_declarations ?_
  rintro _ _ ⟨rfl, rfl⟩
  refine .bind ensures_known ?_
  rintro d _ ⟨rfl, -⟩
  split
  · exact catalog_note.mono fun _ _ same => ⟨same, trivial⟩
  · exact .pure ⟨rfl, trivial⟩

theorem ensures_checkField {f : FieldId} {isStatic : Bool} :
    Ensures (checkField f isStatic) b fun _ t => t.catalog = b.catalog ∧
      f.index < b.catalog.fields.size := by
  refine .bind ensures_declarations ?_
  rintro _ _ ⟨rfl, rfl⟩
  refine .bind ensures_known ?_
  rintro d _ ⟨rfl, hd⟩
  dsimp only
  split
  · exact catalog_note.mono fun _ _ same => ⟨same, Roster.lt_size hd⟩
  · exact .pure ⟨rfl, Roster.lt_size hd⟩

/-- A type that is declared, or declared again, has an id. -/
theorem ensures_addType {name : String} {form : TypeForm} :
    Ensures (addType name form) b fun id t => b.Builds t ∧ id.index < t.catalog.types.size := by
  refine ensures_builds (.bind ensures_declarations ?_) fun hb => leaves_addType.wellScoped hb
  rintro _ _ ⟨rfl, rfl⟩
  have le := Table.size_le_size_intern (t := b.catalog.types) (e := ⟨name, form⟩)
  have lt := Table.lt_size_intern (t := b.catalog.types) (e := ⟨name, form⟩)
  generalize b.catalog.types.intern ⟨name, form⟩ = interned at le lt
  obtain ⟨id, types⟩ := interned
  refine .bind ensures_modifyCatalog ?_
  rintro _ _ rfl
  dsimp only
  split
  · refine .bind catalog_note fun _ t same => .pure ?_
    rw [same]
    exact ⟨.withTypes le, lt⟩
  · exact .pure ⟨.withTypes le, lt⟩

theorem ensures_arrayOf {elem : TypeId} :
    Ensures (arrayOf elem) b fun id t => b.Builds t ∧ id.index < t.catalog.types.size := by
  refine .bind ensures_declarations ?_
  rintro _ _ ⟨rfl, rfl⟩
  refine .bind ensures_known ?_
  rintro name _ ⟨rfl, -⟩
  exact ensures_addType

theorem ensures_addField {owner : TypeId} {name : String} {type : TypeId} {isStatic : Bool} :
    Ensures (addField owner name type isStatic) b fun _ t => b.Builds t := by
  rintro _ _ run
  cases run
  exact ⟨.pushField, fun hb none => (hb none).of_owns rfl rfl fun _ _ => id⟩

theorem builds_addVar {m : MethodId} {name : String} {type : TypeId}
    (known : type.index < b.catalog.types.size) :
    Ensures (addVar m name type) b fun _ t => b.Builds t := by
  rintro _ _ run
  cases run
  exact ⟨.pushVar known, leaves_addVar.wellScoped⟩

/-- A method may be declared once the types of its signature are. -/
theorem ensures_addMethod {ref : MethodRef} {isStatic isAbstract : Bool}
    (known : b.catalog.Spells ref) :
    Ensures (addMethod ref isStatic isAbstract) b fun id t =>
      b.Builds t ∧ id.index < t.catalog.methods.size := by
  refine ensures_builds (.bind ensures_declarations ?_) leaves_addMethod
  rintro _ _ ⟨rfl, rfl⟩
  have var {t : Builder} (bt : b.catalog.Secures t.catalog) {name : String} {type : TypeId}
      (known : type.index < b.catalog.types.size) :
      Ensures (addVar b.catalog.methods.nextId name type) t fun _ u =>
        t.catalog.Secures u.catalog :=
    (builds_addVar (Nat.lt_of_lt_of_le known bt.types)).mono fun _ _ h => h.toSecures
  have finish (receiver : Option VarId) {t : Builder} (bt : b.catalog.Secures t.catalog) :
      Ensures (do
        let params ← ref.sub.params.zipIdx.mapM fun param =>
          addVar b.catalog.methods.nextId s!"p{param.2}" param.1
        let method := { ref, isStatic, isAbstract, receiver, params : MethodDecl }
        modifyCatalog fun c => { c with methods := c.methods.push method }
        return b.catalog.methods.nextId) t fun id u =>
          b.catalog.Secures u.catalog ∧ id.index < u.catalog.methods.size := by
    refine .bind (.mapM (R := fun b t => b.catalog.Secures t.catalog) (D := fun _ _ => True)
      (fun _ _ _ => .refl _) (fun _ _ _ => .trans) (fun _ _ _ _ => id) (.refl _)
      fun param mem u tu => (var (bt.trans tu) ?_).mono fun _ _ h => ⟨h, trivial⟩) ?_
    · exact known.params param.1 (List.fst_mem_of_mem_zipIdx mem)
    · rintro params u ⟨tu, -⟩
      refine .bind ensures_modifyCatalog ?_
      rintro _ _ rfl
      have bu := bt.trans tu
      refine .pure ⟨bu.trans (.pushMethod ⟨known.mono bu.types, by simp⟩), ?_⟩
      exact Nat.lt_of_le_of_lt bu.methods (Roster.size_push ▸ Nat.lt_succ_self _)
  split
  · exact finish none (.refl _)
  · exact .bind (.map (var (.refl _) known.owner)) fun receiver t bt => finish receiver bt

theorem secures_modifyMethod {m : MethodId} {f : MethodDecl → MethodDecl}
    (keep : ∀ d, b.catalog.SealedMethod d → b.catalog.SealedMethod (f d)) :
    Ensures (modifyMethod m f) b fun _ t => b.catalog.Secures t.catalog :=
  ensures_modifyMethod.mono fun _ _ eq => eq ▸ .modifyMethod keep

theorem secures_addStatement {m : MethodId} {s : Statement} (typed : b.catalog.Typed s) :
    Ensures (addStatement m s) b fun _ t => b.catalog.Secures t.catalog := by
  have push {t : Builder} (same : t.catalog = b.catalog) :
      Ensures (modifyMethod m fun d => { d with body := d.body.push s }) t fun _ u =>
        b.catalog.Secures u.catalog := by
    rw [← same] at typed ⊢
    refine secures_modifyMethod fun d hd => { hd with body := fun s' hs' => ?_ }
    obtain old | rfl := Array.mem_push.1 hs'
    · exact hd.body s' old
    · exact typed
  refine .bind ensures_method ?_
  rintro d _ ⟨rfl, -⟩
  split
  · exact .bind catalog_note fun _ _ same => push same
  · exact push rfl

/-- A statement may be added once its types are declared. -/
theorem ensures_add {m : MethodId} {s : Statement} (plain : ∀ site, s ≠ .invoke site)
    (known : ∀ t ∈ s.types, t.index < b.catalog.types.size) :
    Ensures (add m s) b fun _ t => b.Builds t := by
  refine (ensures_builds (Q := fun _ _ => True) ?_ (leaves_add plain)).mono fun _ _ => And.left
  refine .bind catalog_checkVars fun _ t same => ?_
  rw [← same] at known ⊢
  have append (field : ∀ f isStatic, accessed? s = some (f, isStatic) →
      f.index < t.catalog.fields.size) {u : Builder} (tu : t.catalog.Secures u.catalog) :
      Ensures (addStatement m s) u fun _ v => t.catalog.Secures v.catalog ∧ True :=
    (secures_addStatement (Catalog.Typed.mono ⟨known, field⟩ tu.types tu.fields)).mono
      fun _ _ uv => ⟨tu.trans uv, trivial⟩
  have checked {field : FieldId} {isStatic : Bool} (accesses : accessed? s = some (field, isStatic)) :
      Ensures (checkField field isStatic >>= fun _ => addStatement m s) t fun _ v =>
        t.catalog.Secures v.catalog ∧ True := by
    refine .bind ensures_checkField fun _ u ⟨same, lt⟩ => append (fun f isStatic' eq => ?_) ?_
    · cases accesses.symm.trans eq
      exact lt
    · rw [same]
      exact .refl _
  cases s with
  | loadField | storeField | loadStatic | storeStatic => exact checked rfl
  | new | assign | cast | loadArray | storeArray => exact append (by simp [accessed?]) (.refl _)
  | invoke site => exact absurd rfl (plain site)
  | ret var =>
    cases var with
    | none => exact append (by simp [accessed?]) (.refl _)
    | some v =>
      exact .bind (secures_modifyMethod fun d hd => { hd with }) fun _ u tu =>
        append (by simp [accessed?]) tu

/-- A call may be added to a method once whatever its target and its handle mention is declared. -/
theorem ensures_addCall {m : MethodId} {kind : CallKind} {target : MethodRef}
    {base : Option VarId} {args : List VarId} {result : Option VarId}
    (container : m.index < b.catalog.methods.size) (known : b.catalog.Spells target)
    (handle : ∀ bootstrap handle, kind = .dynamic ⟨bootstrap, some handle⟩ →
      b.catalog.Spells handle.target) :
    Ensures (addCall m kind target base args result) b fun _ t => b.Builds t := by
  refine (ensures_builds (Q := fun _ _ => True) ?_ leaves_addCall).mono fun _ _ => And.left
  refine .bind catalog_checkVars fun _ t same => ?_
  rw [← same] at container known handle ⊢
  have push (index : Nat) {u : Builder} (tu : u.catalog = t.catalog) : Ensures (do
        modifyCatalog fun c =>
          { c with callSites := c.callSites.push (CallSite.mk m index kind target base args result) }
        addStatement m (.invoke u.catalog.callSites.nextId)
        return u.catalog.callSites.nextId) u fun _ v => t.catalog.Secures v.catalog ∧ True := by
    rw [← tu] at container known handle ⊢
    refine .bind ensures_modifyCatalog ?_
    rintro _ _ rfl
    have site : u.catalog.SealedSite (.mk m index kind target base args result) :=
      ⟨container, known, handle⟩
    refine .bind (secures_addStatement ⟨by simp [Statement.types], by simp [accessed?]⟩)
      fun _ v uv => .pure ⟨(Catalog.Secures.pushSite site).trans uv, trivial⟩
  dsimp only
  split
  · refine .bind catalog_note fun _ u tu => ?_
    refine .bind ensures_declarations ?_
    rintro _ _ ⟨rfl, rfl⟩
    exact push _ tu
  · refine .bind ensures_declarations ?_
    rintro _ _ ⟨rfl, rfl⟩
    exact push _ rfl

theorem ensures_addDynamicCall {m : MethodId} {call : DynamicCall} {name : String}
    {type : Option TypeId} {captured : List VarId} {result : Option VarId}
    (complete : b.catalog.Sealed) (declared : ∀ t, type = some t → t.index < b.catalog.types.size)
    (handle : ∀ handle, call.handle = some handle → b.catalog.Spells handle.target) :
    Ensures (addDynamicCall m call name type captured result) b fun _ t => b.Builds t := by
  refine .bind ensures_method ?_
  rintro d _ ⟨rfl, hd⟩
  refine .bind ensures_declarations ?_
  rintro _ _ ⟨rfl, rfl⟩
  have params : Ensures (captured.mapM fun v => known (b.catalog.vars[v]?.map VarDecl.type)) b
      fun types t => b = t ∧ ∀ type ∈ types, type.index < b.catalog.types.size := by
    refine .mapM (R := fun (b t : Builder) => b = t)
      (D := fun (type : TypeId) _ => type.index < b.catalog.types.size)
      (fun _ _ _ => rfl) (fun _ _ _ => .trans) (fun _ _ _ _ => id) rfl fun v _ t same => ?_
    refine ensures_known.mono fun type u ⟨same', found⟩ => ⟨same', ?_⟩
    obtain ⟨d, hd, rfl⟩ := Option.map_eq_some_iff.1 found
    exact complete.vars v d hd
  refine .bind params ?_
  rintro types _ ⟨rfl, known⟩
  have owner := (complete.methods m d hd).ref.owner
  refine ensures_addCall (Roster.lt_size hd) ⟨owner, known, declared⟩ ?_
  rintro _ h ⟨⟩
  exact handle h rfl

theorem ensures_addEntry {m : MethodId} (known : m.index < b.catalog.methods.size) :
    Ensures (addEntry m) b fun _ t => b.Builds t := by
  refine ensures_modifyCatalog.mono ?_
  rintro _ _ rfl
  refine ⟨?_, leaves_addEntry.wellScoped⟩
  dsimp only
  split
  · exact .refl _
  · exact .pushEntry known

end Builder
end PointsTo
