import Mathlib.Data.List.Nodup
import PointsTo.Proofs.Hierarchy.Dispatching

/-!
Constructions without problems are in order: statements access fields as what they are, calls have a
receiver exactly when their kind asks for one, abstract methods have no bodies, and the call sites
of a method are those that its body calls, one after the other.

This asks for declarations that mention none but ids that have been issued. A call in a method that
there is not would leave a call site that no body calls.
-/
namespace PointsTo

theorem Id.pairwise_firsts {kind : Entity} {n : Nat} :
    (Id.firsts n : List (Id kind)).Pairwise (· < ·) := List.pairwise_lt_range.map _ fun _ _ lt => lt

/-- The types that the form of a type is made of. -/
def TypeForm.links : TypeForm → List TypeId
  | .nominal shape => shape.superclass.toList ++ shape.interfaces
  | .array elem => [elem]
  | .primitive | .null => []

/-- The methods that a call passes to its bootstrap method. -/
def CallKind.handles : CallKind → List MethodHandle
  | .dynamic call => call.handle.toList
  | _ => []

/-! ### Call sites of a method -/

/-- The call site that a statement calls. -/
def Statement.site? : Statement → Option CallSiteId
  | .invoke site => some site
  | _ => none

/-- The call sites that a body calls, in the order of the calls. -/
def MethodDecl.calls (d : MethodDecl) : List CallSiteId := d.body.toList.filterMap Statement.site?

namespace Roster

variable {kind : Entity} {α : Type} {r : Roster kind α} {a : α}

theorem exists_getElem?_modify {i j : Id kind} {f : α → α} (h : ∃ a, r[j]? = some a) :
    ∃ a, (r.modify i f)[j]? = some a := by
  obtain ⟨a, found⟩ := h
  rw [getElem?_modify, found]
  split
  · exact ⟨f a, rfl⟩
  · exact ⟨a, rfl⟩

theorem withIds_push : (r.push a).withIds = r.withIds ++ [(r.nextId, a)] := by
  have ids : (r.push a).ids = r.ids ++ [r.nextId] := by
    simp [Roster.ids, Id.firsts, size, push, List.range_succ, nextId]
  have entries : (r.push a).toList = r.toList ++ [a] := Array.toList_push
  have lengths : r.ids.length = r.toList.length := by
    simp [Roster.ids, Id.firsts, size, toList]
  rw [withIds, withIds, ids, entries, List.zip_append lengths]
  rfl

end Roster

namespace Catalog

variable {c : Catalog} {m n : MethodId} {s : CallSiteId} {d : MethodDecl} {site : CallSite}

/-- The call sites of a method, in the order of their ids. -/
def sitesOf (c : Catalog) (m : MethodId) : List CallSiteId :=
  (c.callSites.withIds.filter fun (_, site) => site.container == m).map Prod.fst

theorem sitesOf_push :
    { c with callSites := c.callSites.push site }.sitesOf m =
      c.sitesOf m ++ if site.container = m then [c.callSites.nextId] else [] := by
  rw [sitesOf, Roster.withIds_push, List.filter_append, List.map_append]
  congr 1
  by_cases own : site.container = m <;> simp [own]

theorem length_sitesOf :
    (c.sitesOf m).length = c.callSites.toList.countP fun site => site.container == m := by
  have lengths : c.callSites.toList.length ≤ c.callSites.ids.length := by
    simp [Roster.ids, Id.firsts, Roster.size, Roster.toList]
  have second : c.callSites.withIds.map Prod.snd = c.callSites.toList := List.map_snd_zip lengths
  rw [sitesOf, List.length_map, ← List.countP_eq_length_filter, ← second, List.countP_map]
  rfl

/-- Fields are accessed as what they are. -/
def AccessesWell (c : Catalog) (s : Statement) : Prop :=
  ∀ field isStatic, Builder.accessed? s = some (field, isStatic) →
    ∃ decl, c.fields[field]? = some decl ∧ decl.isStatic = isStatic

structure OrderlyMethod (c : Catalog) (m : MethodId) (d : MethodDecl) : Prop where
  accesses : ∀ s ∈ d.body, c.AccessesWell s
  bodiless : d.isAbstract = true → d.body = #[]
  calls : d.calls = c.sitesOf m

structure OrderlySite (c : Catalog) (s : CallSiteId) (site : CallSite) : Prop where
  receiver : site.base.isSome = site.kind.hasReceiver
  container : ∃ d, c.methods[site.container]? = some d
  rank : (c.sitesOf site.container)[site.index]? = some s

/-- Methods and call sites are in order. -/
structure Orderly (c : Catalog) : Prop where
  methods : ∀ (m : MethodId) d, c.methods[m]? = some d → c.OrderlyMethod m d
  sites : ∀ (s : CallSiteId) site, c.callSites[s]? = some site → c.OrderlySite s site

theorem sitesOf_congr {c' : Catalog} (same : c'.callSites = c.callSites) :
    c'.sitesOf m = c.sitesOf m := by rw [sitesOf, sitesOf, same]

/-- All call sites of a method are listed, and no others. -/
theorem mem_sitesOf : s ∈ c.sitesOf m ↔ ∃ site, c.callSites[s]? = some site ∧ site.container = m := by
  simp only [sitesOf, List.mem_map, List.mem_filter, beq_iff_eq, Prod.exists, Roster.mem_withIds]
  constructor
  · rintro ⟨s, site, own, rfl⟩
    exact ⟨site, own⟩
  · rintro ⟨site, own⟩
    exact ⟨s, site, own, rfl⟩

/-- They ascend. -/
theorem pairwise_sitesOf : (c.sitesOf m).Pairwise (· < ·) := by
  have lengths : c.callSites.ids.length ≤ c.callSites.toList.length := by
    simp [Roster.ids, Id.firsts, Roster.size, Roster.toList]
  have first : c.callSites.withIds.map Prod.fst = c.callSites.ids := List.map_fst_zip lengths
  have ascending : (c.callSites.withIds.map Prod.fst).Pairwise (· < ·) :=
    first ▸ Id.pairwise_firsts
  exact ascending.sublist (List.filter_sublist.map _)

/-! ### Catalogs -/

theorem AccessesWell.mono {c' : Catalog} {s : Statement} (h : c.AccessesWell s)
    (fields : ∀ (f : FieldId) d, c.fields[f]? = some d → c'.fields[f]? = some d) :
    c'.AccessesWell s := fun field isStatic accessed =>
  (h field isStatic accessed).imp fun decl => And.imp_left (fields field decl)

namespace Orderly

/-- Fields may be added, and everything that is neither a method nor a call site is irrelevant. -/
theorem of_fields {c' : Catalog} (h : c.Orderly) (methods : c'.methods = c.methods)
    (sites : c'.callSites = c.callSites)
    (fields : ∀ (f : FieldId) d, c.fields[f]? = some d → c'.fields[f]? = some d) : c'.Orderly where
  methods m d hd := by
    rw [methods] at hd
    have old := h.methods m d hd
    exact
      { accesses := fun s mem => (old.accesses s mem).mono fields
        bodiless := old.bodiless
        calls := old.calls.trans (sitesOf_congr sites).symm }
  sites s site hs := by
    rw [sites] at hs
    have old := h.sites s site hs
    exact
      { receiver := old.receiver
        container := by rw [methods]; exact old.container
        rank := by rw [sitesOf_congr sites]; exact old.rank }

/-- A method is added that has no body yet. -/
theorem pushMethod (h : c.Orderly) (empty : d.body = #[]) :
    { c with methods := c.methods.push d }.Orderly where
  methods m d' hd' := by
    rw [Roster.getElem?_push] at hd'
    split at hd'
    next same =>
      cases hd'
      -- The container of a call site is in the table, and the id of this method is new to it.
      have none : c.sitesOf m = [] := by
        refine List.eq_nil_iff_forall_not_mem.2 fun s mem => ?_
        obtain ⟨site, hs, own⟩ := mem_sitesOf.1 mem
        obtain ⟨d', hd'⟩ := (h.sites s site hs).container
        rw [own, same, Roster.getElem?_nextId] at hd'
        cases hd'
      have calls : d.calls = [] := by rw [MethodDecl.calls, empty]; rfl
      exact
        { accesses := by simp [empty]
          bodiless := fun _ => empty
          calls := calls.trans none.symm }
    next => exact { h.methods m d' hd' with }
  sites s site hs := by
    have old := h.sites s site hs
    exact { old with container := old.container.imp fun d => Roster.getElem?_push_of }

/-- A method is changed so that it stays in order. -/
theorem modifyMethod {f : MethodDecl → MethodDecl} (h : c.Orderly)
    (keep : ∀ d, c.methods[m]? = some d → c.OrderlyMethod m d → c.OrderlyMethod m (f d)) :
    { c with methods := c.methods.modify m f }.Orderly where
  methods m' d hd := by
    rw [Roster.getElem?_modify] at hd
    split at hd
    next same =>
      obtain ⟨d', hd', rfl⟩ := Option.map_eq_some_iff.1 hd
      cases same
      exact { keep d' hd' (h.methods m d' hd') with }
    next => exact { h.methods m' d hd with }
  sites s site hs := by
    have old := h.sites s site hs
    exact { old with container := Roster.exists_getElem?_modify old.container }

/-- A call is added behind the body of its method. -/
theorem pushCall (h : c.Orderly) (hd : c.methods[m]? = some d) (concrete : d.isAbstract = false)
    (own : site.container = m) (receiver : site.base.isSome = site.kind.hasReceiver)
    (index : site.index = (c.sitesOf m).length) :
    { c with
      callSites := c.callSites.push site
      methods := c.methods.modify m fun d =>
        { d with body := d.body.push (.invoke c.callSites.nextId) } }.Orderly where
  methods m' d' hd' := by
    rw [Roster.getElem?_modify] at hd'
    split at hd'
    next same =>
      subst same
      rw [hd] at hd'
      cases hd'
      have old := h.methods m d hd
      have calls : (d.body.push (.invoke c.callSites.nextId)).toList.filterMap Statement.site? =
          c.sitesOf m ++ [c.callSites.nextId] := by
        rw [Array.toList_push, List.filterMap_append, ← old.calls]
        rfl
      refine ⟨fun s mem => ?_, fun abstract => ?_, ?_⟩
      · obtain mem | rfl := Array.mem_push.1 mem
        · exact old.accesses s mem
        · exact fun field isStatic accessed => by cases accessed
      · exact absurd (concrete.symm.trans abstract) Bool.false_ne_true
      · rw [MethodDecl.calls, calls]
        exact (sitesOf_push.trans (by rw [if_pos own])).symm
    next other =>
      have old := h.methods m' d' hd'
      have same : site.container ≠ m' := fun eq => other (own.symm.trans eq)
      refine { old with calls := old.calls.trans ?_ }
      exact (sitesOf_push.trans (by rw [if_neg same, List.append_nil])).symm
  sites s site' hs := by
    rw [Roster.getElem?_push] at hs
    split at hs
    next same =>
      cases hs
      refine ⟨receiver, Roster.exists_getElem?_modify ⟨d, own ▸ hd⟩, ?_⟩
      refine (congrArg (·[site.index]?) (sitesOf_push (c := c))).trans ?_
      rw [if_pos rfl, own, index, List.getElem?_append_right (Nat.le_refl _), Nat.sub_self, same]
      rfl
    next =>
      have old := h.sites s site' hs
      refine ⟨old.receiver, Roster.exists_getElem?_modify old.container, ?_⟩
      refine (congrArg (·[site'.index]?) (sitesOf_push (c := c))).trans ?_
      have inside := (List.getElem?_eq_some_iff.1 old.rank).1
      rw [List.getElem?_append_left inside]
      exact old.rank

end Orderly
end Catalog

/-! ### Steps -/

/-- A first step is known to succeed. -/
theorem Leaves.of_run {σ α β : Type} {f : ExceptT Fault (StateM σ) α}
    {g : α → ExceptT Fault (StateM σ) β} {s t : σ} {a : α} {Q : σ → Prop}
    (run : f s = (.ok a, t)) (h : Leaves (g a) t Q) : Leaves (f >>= g) s Q := by
  unfold Leaves
  rw [Ensures.bind_run, run]
  exact h

namespace Builder

variable {b : Builder} {m : MethodId} {d : MethodDecl} {s : Statement}

/-- A builder that has no problems is in order. -/
def Orderly (b : Builder) : Prop := b.problems = [] → b.catalog.Orderly

theorem Keeps.orderly {t : Builder} (h : b.Keeps t) (hb : b.Orderly) : t.Orderly := fun none =>
  (hb (h.problems none)).of_fields h.methods h.sites h.fields

theorem method_run (hd : b.catalog.methods[m]? = some d) : method m b = (.ok d, b) := by
  change (known b.catalog.methods[m]?) b = _
  rw [hd]
  rfl

theorem modifyMethod_run {f : MethodDecl → MethodDecl} (hd : b.catalog.methods[m]? = some d) :
    modifyMethod m f b = (.ok ⟨⟩,
      { b with catalog := { b.catalog with methods := b.catalog.methods.modify m f } }) := by
  unfold modifyMethod
  rw [Ensures.bind_run, method_run hd]
  rfl

/-- A statement is added behind the body of a method that there is. For an abstract method a problem
is noted. -/
theorem addStatement_run (hd : b.catalog.methods[m]? = some d) :
    ∃ noted : List String, (noted = [] → d.isAbstract = false) ∧
      addStatement m s b = (.ok ⟨⟩,
        { catalog := { b.catalog with
            methods := b.catalog.methods.modify m fun d => { d with body := d.body.push s } }
          problems := b.problems ++ noted }) := by
  unfold addStatement
  rw [Ensures.bind_run, method_run hd]
  dsimp only
  split
  next abstract =>
    refine ⟨[s!"abstract method #{m.index} cannot have a body"],
      fun none => absurd none (List.cons_ne_nil _ _), ?_⟩
    exact (Ensures.bind_run ..).trans (modifyMethod_run hd)
  next concrete =>
    refine ⟨[], fun _ => Bool.eq_false_iff.2 concrete, ?_⟩
    rw [List.append_nil]
    exact modifyMethod_run hd

theorem addStatement_unknown (unknown : b.catalog.methods[m]? = none) :
    addStatement m s b = (.error .unknownId, b) := by
  have stops : method m b = (.error .unknownId, b) := by
    change (known b.catalog.methods[m]?) b = _
    rw [unknown]
    rfl
  unfold addStatement
  rw [Ensures.bind_run, stops]

/-- A statement other than a call is added. -/
theorem orderly_addStatement (plain : s.site? = none) (hb : b.Orderly)
    (accesses : b.problems = [] → b.catalog.AccessesWell s) :
    Leaves (addStatement m s) b Orderly := by
  unfold Leaves
  cases hd : b.catalog.methods[m]? with
  | none =>
    rw [addStatement_unknown hd]
    exact hb
  | some d =>
    obtain ⟨noted, concrete, run⟩ := addStatement_run (s := s) hd
    rw [run]
    intro none
    obtain ⟨done, rfl⟩ : b.problems = [] ∧ noted = [] := List.append_eq_nil_iff.1 none
    refine (hb done).modifyMethod fun d' hd' old => ?_
    cases hd.symm.trans hd'
    refine ⟨fun s' mem => ?_, fun abstract => ?_, ?_⟩
    · obtain mem | rfl := Array.mem_push.1 mem
      · exact old.accesses s' mem
      · exact accesses done
    · exact absurd ((concrete rfl).symm.trans abstract) Bool.false_ne_true
    · refine Eq.trans ?_ old.calls
      rw [MethodDecl.calls, Array.toList_push, List.filterMap_append, List.filterMap_cons, plain]
      exact List.append_nil _

theorem ensures_accessed {field : FieldId} {isStatic : Bool} :
    Ensures (checkField field isStatic) b fun _ t => t.problems = [] →
      ∃ decl, b.catalog.fields[field]? = some decl ∧ decl.isStatic = isStatic := by
  refine .bind ensures_declarations ?_
  rintro _ _ ⟨rfl, rfl⟩
  refine .bind ensures_known ?_
  rintro decl _ ⟨rfl, hf⟩
  dsimp only
  split
  · exact .modify fun none => by cases (List.append_eq_nil_iff.1 none).2
  next same => exact .pure fun _ => ⟨decl, hf, by simpa using same⟩

theorem orderly_add (plain : ∀ site, s ≠ .invoke site) (hb : b.Orderly) :
    Leaves (add m s) b Orderly := by
  refine .bind leaves_checkVars.ensures (Keeps.orderly leaves_checkVars hb) fun _ t bt ht => ?_
  have unchecked {u : Builder} (hu : u.Orderly) (accessed : accessed? s = none)
      (noCall : s.site? = none) : Leaves (addStatement m s) u Orderly :=
    orderly_addStatement noCall hu fun _ field isStatic found => by
      cases accessed.symm.trans found
  have checked {field : FieldId} {isStatic : Bool} (accessed : accessed? s = some (field, isStatic))
      (noCall : s.site? = none) :
      Leaves (checkField field isStatic >>= fun _ => addStatement m s) t Orderly := by
    refine .bind (.and leaves_checkField.ensures ensures_accessed)
      (Keeps.orderly leaves_checkField ht) fun _ u ⟨tu, found⟩ hu => ?_
    refine orderly_addStatement noCall hu fun none field' isStatic' accessed' => ?_
    cases accessed.symm.trans accessed'
    exact (found none).imp fun decl => And.imp_left (tu.fields field decl)
  cases s with
  | loadField | storeField | loadStatic | storeStatic => exact checked rfl rfl
  | new | assign | cast | loadArray | storeArray => exact unchecked ht rfl rfl
  | invoke site => exact absurd rfl (plain site)
  | ret var =>
    cases var with
    | none => exact unchecked ht rfl rfl
    | some v =>
      have returned : Leaves (modifyMethod m fun d => { d with returns := d.returns ++ [v] }) t
          Orderly := by
        refine .bind ensures_method (leaves_method ht) ?_
        rintro _ _ ⟨rfl, -⟩ -
        exact fun none => (ht none).modifyMethod fun d _ old => { old with }
      exact .bind returned.ensures returned fun _ u hu _ => unchecked hu rfl rfl

/-- A call site comes with the statement that calls it. -/
theorem orderly_callStatement {site : CallSite} (hb : b.Orderly)
    (hd : b.catalog.methods[site.container]? = some d)
    (receiver : b.problems = [] → site.base.isSome = site.kind.hasReceiver)
    (index : site.index = (b.catalog.sitesOf site.container).length) :
    Leaves (addStatement site.container (.invoke b.catalog.callSites.nextId))
      { b with catalog := { b.catalog with callSites := b.catalog.callSites.push site } } Orderly := by
  let pushed : Builder :=
    { b with catalog := { b.catalog with callSites := b.catalog.callSites.push site } }
  obtain ⟨noted, concrete, run⟩ := addStatement_run (b := pushed)
    (s := .invoke b.catalog.callSites.nextId) hd
  unfold Leaves
  rw [run]
  intro none
  obtain ⟨done, rfl⟩ : b.problems = [] ∧ noted = [] := List.append_eq_nil_iff.1 none
  exact (hb done).pushCall hd (concrete rfl) rfl (receiver done) index

/-- A call is added to a method that there is. -/
theorem orderly_addCall {kind : CallKind} {target : MethodRef} {base : Option VarId}
    {args : List VarId} {result : Option VarId} (hb : b.Orderly)
    (known : m.index < b.catalog.methods.size) :
    Leaves (addCall m kind target base args result) b Orderly := by
  refine .bind leaves_checkVars.ensures (Keeps.orderly leaves_checkVars hb) fun _ t bt ht => ?_
  obtain ⟨d, hd⟩ : ∃ d, t.catalog.methods[m]? = some d := by
    rw [bt.methods]
    exact Roster.exists_getElem? known
  have push {u : Builder} (tu : t.Keeps u)
      (receiver : u.problems = [] → base.isSome = kind.hasReceiver) : Leaves (do
        let sites := (← declarations).callSites
        let index := sites.toList.countP (·.container == m)
        modifyCatalog fun c =>
          { c with callSites := c.callSites.push (CallSite.mk m index kind target base args result) }
        addStatement m (.invoke sites.nextId)
        return sites.nextId) u Orderly := by
    let site : CallSite := ⟨m, u.catalog.callSites.toList.countP (·.container == m), kind, target,
      base, args, result⟩
    have hd : u.catalog.methods[site.container]? = some d := by
      rw [tu.methods]
      exact hd
    have called := orderly_callStatement (tu.orderly ht) hd receiver Catalog.length_sitesOf.symm
    refine .of_run (a := u.catalog) (t := u) rfl ?_
    refine .of_run (a := ⟨⟩)
      (t := { u with catalog := { u.catalog with callSites := u.catalog.callSites.push site } }) rfl ?_
    exact .bind (P := fun _ _ => True) (fun _ _ _ => trivial) called fun _ _ _ => id
  dsimp only
  split
  next =>
    refine .bind (P := fun _ u => t.Keeps u ∧ u.problems ≠ []) (.modify ⟨.note t _, ?_⟩)
      (Keeps.orderly (.note t _) ht) fun _ u ⟨tu, found⟩ _ => push tu fun none => absurd none found
    exact fun none => List.cons_ne_nil _ _ (List.append_eq_nil_iff.1 none).2
  next same =>
    refine push (.refl t) fun _ => ?_
    exact (Decidable.not_not.1 fun ne => same (bne_iff_ne.2 ne)).symm

theorem orderly_addDynamicCall {call : DynamicCall} {name : String} {type : Option TypeId}
    {captured : List VarId} {result : Option VarId} (hb : b.Orderly)
    (known : m.index < b.catalog.methods.size) :
    Leaves (addDynamicCall m call name type captured result) b Orderly := by
  refine .bind ensures_method (leaves_method hb) ?_
  rintro d _ ⟨rfl, -⟩ -
  refine .bind ensures_declarations hb ?_
  rintro _ _ ⟨rfl, rfl⟩ -
  have params {Q : Builder → Prop} (h : Q b) :
      Leaves (captured.mapM fun v => Builder.known (b.catalog.vars[v]?.map VarDecl.type)) b Q :=
    .mapM (fun _ _ _ => leaves_known) h
  refine .bind (params (Q := (b = ·)) rfl).ensures (params hb) ?_
  rintro _ _ rfl -
  exact orderly_addCall hb known

/-- A method is added; until it is, only its variables are. -/
theorem orderly_addMethod {ref : MethodRef} {isStatic isAbstract : Bool} (hb : b.Orderly) :
    Leaves (addMethod ref isStatic isAbstract) b Orderly := by
  refine .bind ensures_declarations hb ?_
  rintro _ _ ⟨rfl, rfl⟩ -
  have finish (receiver : Option VarId) {t : Builder} (ht : t.Orderly) : Leaves (do
      let params ← ref.sub.params.zipIdx.mapM fun param =>
        addVar b.catalog.methods.nextId s!"p{param.2}" param.1
      let method := { ref, isStatic, isAbstract, receiver, params : MethodDecl }
      modifyCatalog fun c => { c with methods := c.methods.push method }
      return b.catalog.methods.nextId) t Orderly := by
    have declared : Leaves (ref.sub.params.zipIdx.mapM fun param =>
        addVar b.catalog.methods.nextId s!"p{param.2}" param.1) t Orderly :=
      .mapM (fun _ _ _ hu => leaves_addVar.orderly hu) ht
    exact .bind declared.ensures declared fun params u hu _ none => (hu none).pushMethod rfl
  dsimp only
  split
  · exact finish none hb
  · have receiver : Leaves (some <$> addVar b.catalog.methods.nextId "this" ref.owner) b Orderly :=
      leaves_addVar.orderly hb
    exact .bind receiver.ensures receiver fun receiver t ht _ => finish receiver ht

end Builder

/-! ### Declarations -/

namespace Catalog

variable {c : Catalog}

/-- The ids that a declaration mentions have been issued. -/
def Knows (c : Catalog) : Declaration → Prop
  | .type _ form => ∀ t ∈ form.links, t.index < c.types.size
  | .array elem => elem.index < c.types.size
  | .field owner _ type _ => owner.index < c.types.size ∧ type.index < c.types.size
  | .method ref _ _ => c.Spells ref
  | .var method _ type => method.index < c.methods.size ∧ type.index < c.types.size
  | .statement method s _ => method.index < c.methods.size ∧ c.Typed s ∧
    ∀ v ∈ Builder.mentioned s, v.index < c.vars.size
  | .call container kind target base args result => container.index < c.methods.size ∧
    c.Spells target ∧ (∀ handle ∈ kind.handles, c.Spells handle.target) ∧
    ∀ v ∈ args ++ base.toList ++ result.toList, v.index < c.vars.size
  | .dynamicCall container call _ type captured result => container.index < c.methods.size ∧
    (∀ handle ∈ call.handle.toList, c.Spells handle.target) ∧
    (∀ t ∈ type.toList, t.index < c.types.size) ∧
    ∀ v ∈ captured ++ result.toList, v.index < c.vars.size
  | .entry method => method.index < c.methods.size

instance {r : MethodRef} : Decidable (c.Spells r) :=
  decidable_of_iff (r.owner.index < c.types.size ∧ (∀ t ∈ r.sub.params, t.index < c.types.size) ∧
      ∀ t ∈ r.sub.result.toList, t.index < c.types.size)
    ⟨fun ⟨owner, params, result⟩ => ⟨owner, params, fun t ht => result t (Option.mem_toList.2 ht)⟩,
      fun h => ⟨h.owner, h.params, fun t ht => h.result t (Option.mem_toList.1 ht)⟩⟩

instance {s : Statement} : Decidable (c.Typed s) :=
  decidable_of_iff ((∀ t ∈ s.types, t.index < c.types.size) ∧
      ∀ access ∈ (Builder.accessed? s).toList, access.1.index < c.fields.size)
    ⟨fun ⟨types, field⟩ => ⟨types, fun f isStatic h => field (f, isStatic) (Option.mem_toList.2 h)⟩,
      fun h => ⟨h.types, fun access ha => h.field access.1 access.2 (Option.mem_toList.1 ha)⟩⟩

instance {d : Declaration} : Decidable (c.Knows d) := by
  cases d <;> dsimp only [Knows] <;> infer_instance

end Catalog

namespace Builder

variable {b : Builder}

/-- Every declaration of the list mentions ids only that are issued before it. -/
def Issues : Builder → List Declaration → Prop
  | _, [] => True
  | b, d :: ds => b.catalog.Knows d ∧ (b.declare d).Issues ds

instance : (b : Builder) → (ds : List Declaration) → Decidable (b.Issues ds)
  | _, [] => .isTrue trivial
  | b, d :: ds =>
    have := instDecidableIssues (b.declare d) ds
    inferInstanceAs (Decidable (b.catalog.Knows d ∧ (b.declare d).Issues ds))

theorem Orderly.declare {d : Declaration} (hb : b.Orderly) (knows : b.catalog.Knows d) :
    (b.declare d).Orderly := by
  cases d with
  | type => exact leaves_addType.orderly hb
  | array => exact leaves_arrayOf.orderly hb
  | field => exact fun none => (hb none).of_fields rfl rfl fun _ _ => Roster.getElem?_push_of
  | method => exact orderly_addMethod hb
  | var => exact leaves_addVar.orderly hb
  | statement _ _ plain => exact orderly_add plain hb
  | call => exact orderly_addCall hb knows.1
  | dynamicCall => exact orderly_addDynamicCall hb knows.1
  | entry => exact leaves_addEntry.orderly hb

/-- Declarations that mention issued ids construct something that is in order. -/
theorem orderly_ofDeclarations {ds : List Declaration} (issued : Issues {} ds) :
    (ofDeclarations ds).Orderly := by
  have run (ds : List Declaration) (b : Builder) (hb : b.Orderly) (issued : b.Issues ds) :
      (ds.foldl Builder.declare b).Orderly := by
    induction ds generalizing b with
    | nil => exact hb
    | cons d ds ih => exact ih _ (hb.declare issued.1) issued.2
  exact run ds {} (fun _ => ⟨fun _ _ h => (by cases h), fun _ _ h => (by cases h)⟩) issued

end Builder
end PointsTo
