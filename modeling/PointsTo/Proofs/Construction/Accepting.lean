import PointsTo.Proofs.Construction.Orderly

/-!
A construction that is accepted gives a well-built program: everything that a method mentions is its
own, fields and calls are used as what they are, every call site is called once, where it is
numbered, signatures and type names tell methods and types apart, and the use index lists what waits
for each variable in the order of the statements.
-/
namespace PointsTo

/-! ### Uses in order -/

namespace Catalog

variable {c : Catalog} {v base : VarId} {s : Statement} {done l : List Statement}

/-- What waits for a variable among some statements, in their order. -/
def usesAmong (c : Catalog) (l : List Statement) (v : VarId) : VarUses where
  loads := l.filterMap fun
    | .loadField lhs base field => if base = v then some (field, lhs) else none
    | _ => none
  stores := l.filterMap fun
    | .storeField base field rhs => if base = v then some (field, rhs) else none
    | _ => none
  arrayLoads := l.filterMap fun
    | .loadArray lhs base => if base = v then some lhs else none
    | _ => none
  arrayStores := l.filterMap fun
    | .storeArray base rhs => if base = v then some rhs else none
    | _ => none
  invokes := l.filterMap fun
    | .invoke site => if c.base? (.invoke site) = some v then some site else none
    | _ => none

/-- A statement that does not wait for a variable does not count among its uses. -/
theorem usesAmong_of_ne (other : c.base? s ≠ some v) :
    c.usesAmong (done ++ [s]) v = c.usesAmong done v := by
  have skips {α : Type} {f : Statement → Option α} (skipped : f s = none) :
      (done ++ [s]).filterMap f = done.filterMap f := by
    rw [List.filterMap_append, List.filterMap_cons, skipped]
    exact List.append_nil _
  have away {α : Type} {base : VarId} {a : α} (waits : c.base? s = some base) :
      (if base = v then some a else none) = none :=
    if_neg fun same => other (waits.trans (congrArg some same))
  unfold usesAmong
  cases s with
  | loadField lhs base field => rw [skips (away rfl), skips rfl, skips rfl, skips rfl, skips rfl]
  | storeField base field rhs => rw [skips rfl, skips (away rfl), skips rfl, skips rfl, skips rfl]
  | loadArray lhs base => rw [skips rfl, skips rfl, skips (away rfl), skips rfl, skips rfl]
  | storeArray base rhs => rw [skips rfl, skips rfl, skips rfl, skips (away rfl), skips rfl]
  | invoke site => rw [skips rfl, skips rfl, skips rfl, skips rfl, skips (if_neg other)]
  | new | assign | cast | loadStatic | storeStatic | ret =>
    rw [skips rfl, skips rfl, skips rfl, skips rfl, skips rfl]

/-- The entries of a table of uses are those of the given statements. -/
def Tallies (c : Catalog) (uses : Roster .var VarUses) (l : List Statement) : Prop :=
  ∀ v : VarId, uses[v]? = if v.index < c.vars.size then some (c.usesAmong l v) else none

theorem Tallies.modify {uses : Roster .var VarUses} {f : VarUses → VarUses}
    (h : c.Tallies uses done) (waits : c.base? s = some base)
    (grown : c.usesAmong (done ++ [s]) base = f (c.usesAmong done base)) :
    c.Tallies (uses.modify base f) (done ++ [s]) := by
  intro v
  rw [Roster.getElem?_modify, h v]
  split
  next same =>
    subst same
    rw [grown]
    split <;> rfl
  next other => rw [usesAmong_of_ne fun same => other (Option.some.inj (waits.symm.trans same))]

theorem Tallies.skip {uses : Roster .var VarUses} (h : c.Tallies uses done)
    (waits : c.base? s = none) : c.Tallies uses (done ++ [s]) := fun v => by
  rw [h v, usesAmong_of_ne (by rw [waits]; exact Option.some_ne_none v |>.symm)]

/-- Recording a statement puts it behind the uses of the variable that it waits for. -/
theorem Tallies.recordUse {uses : Roster .var VarUses} (h : c.Tallies uses done) :
    c.Tallies (c.recordUse uses s) (done ++ [s]) := by
  cases s with
  | loadField lhs base field => exact h.modify rfl (by simp [usesAmong])
  | storeField base field rhs => exact h.modify rfl (by simp [usesAmong])
  | loadArray lhs base => exact h.modify rfl (by simp [usesAmong])
  | storeArray base rhs => exact h.modify rfl (by simp [usesAmong])
  | invoke site =>
    rw [recordUse_invoke]
    cases waits : c.base? (.invoke site) with
    | none => exact h.skip waits
    | some base => exact h.modify waits (by simp [usesAmong, waits])
  | new | assign | cast | loadStatic | storeStatic | ret => exact h.skip rfl

/-- The use index lists exactly what waits for each variable, in the order of the statements. -/
theorem tallies_useIndex : c.Tallies c.useIndex c.statements := by
  have run (l done : List Statement) (uses : Roster .var VarUses) (h : c.Tallies uses done) :
      c.Tallies (l.foldl c.recordUse uses) (done ++ l) := by
    induction l generalizing done uses with
    | nil => rwa [List.append_nil]
    | cons s l ih =>
      rw [List.append_cons]
      exact ih (done ++ [s]) _ h.recordUse
  rw [useIndex_eq]
  exact run c.statements [] _ fun v => Roster.getElem?_replicate

/-! ### Signatures and names -/

/-- Where texts are distinct, the index gives the method of each. -/
theorem getElem?_signatureIndex {texts : List String} (length : texts.length = c.methods.size)
    (apart : texts.Nodup) {m : MethodId} {text : String} (mem : (m, text) ∈ c.methods.ids.zip texts) :
    (c.signatureIndex texts).1[text]? = some m := by
  have run {note : Index String MethodId × List String → MethodId × String →
        Index String MethodId × List String}
      (notes : ∀ r id text, (note r (id, text)).1 = r.1.insert text id)
      (l : List (MethodId × String)) (r : Index String MethodId × List String)
      (apart : (l.map Prod.snd).Nodup)
      (found : (m, text) ∈ l ∨ text ∉ l.map Prod.snd ∧ r.1[text]? = some m) :
      (l.foldl note r).1[text]? = some m := by
    induction l generalizing r with
    | nil => exact (found.resolve_left List.not_mem_nil).2
    | cons pair l ih =>
      obtain ⟨fresh, apart⟩ := List.nodup_cons.1 apart
      refine ih _ apart ?_
      rw [notes, Std.TreeMap.getElem?_insert]
      obtain here | ⟨behind, old⟩ := found
      · obtain rfl | later := List.mem_cons.1 here
        · exact .inr ⟨fresh, if_pos (Coded.compare_eq_iff.2 rfl)⟩
        · exact .inl later
      · obtain ⟨other, behind⟩ := not_or.1 fun h => behind (List.mem_cons.2 h)
        exact .inr ⟨behind, (if_neg fun same => other (Coded.compare_eq_iff.1 same).symm).trans old⟩
  refine run (fun _ _ _ => rfl) _ _ ?_ (.inl mem)
  rwa [List.map_snd_zip]
  simp [Roster.ids, Id.firsts, length]

end Catalog

namespace Program

variable {b : Builder} {p : Program} {m m' : MethodId}

/-- The statement at a position of a body calls a call site. -/
def Calls (p : Program) (m : MethodId) (i : Nat) (s : CallSiteId) : Prop :=
  ∃ d, p.methods[m]? = some d ∧ d.body[i]? = some (.invoke s)

theorem mem_calls {d : MethodDecl} {s : CallSiteId} :
    s ∈ d.calls ↔ ∃ i : Nat, d.body[i]? = some (.invoke s) := by
  have only (t : Statement) : t.site? = some s ↔ t = .invoke s := by
    cases t <;> simp [Statement.site?]
  simp only [MethodDecl.calls, List.mem_filterMap, only, exists_eq_right, Array.mem_toList_iff,
    Array.mem_iff_getElem?]

/-- A body whose calls are distinct calls each call site at one position. -/
theorem call_unique {d : MethodDecl} {s : CallSiteId} {i j : Nat} (apart : d.calls.Nodup)
    (hi : d.body[i]? = some (.invoke s)) (hj : d.body[j]? = some (.invoke s)) : i = j := by
  have ordered {i j : Nat} (hi : d.body[i]? = some (.invoke s))
      (hj : d.body[j]? = some (.invoke s)) (lt : i < j) : False := by
    rw [← Array.getElem?_toList] at hi hj
    obtain ⟨li, hi⟩ := List.getElem?_eq_some_iff.1 hi
    obtain ⟨lj, hj⟩ := List.getElem?_eq_some_iff.1 hj
    have ne := List.pairwise_iff_getElem.1 (List.pairwise_filterMap.1 apart) i j li lj lt
    exact ne s (by rw [hi]; rfl) s (by rw [hj]; rfl) rfl
  rcases Nat.lt_trichotomy i j with lt | eq | gt
  · exact (ordered hi hj lt).elim
  · exact eq
  · exact (ordered hj hi gt).elim

/-- In an orderly program, every call site is called once, by its container. -/
theorem calls_once (orderly : p.toCatalog.Orderly) {s : CallSiteId} {site : CallSite}
    (hs : p.callSites[s]? = some site) : ∃ i, ∀ m j, p.Calls m j s ↔ m = site.container ∧ j = i := by
  obtain ⟨d, hd⟩ := (orderly.sites s site hs).container
  have calls {m : MethodId} {d : MethodDecl} (hd : p.methods[m]? = some d) :
      d.calls = p.sitesOf m := (orderly.methods m d hd).calls
  have mem : s ∈ d.calls := (calls hd).symm ▸ Catalog.mem_sitesOf.2 ⟨site, hs, rfl⟩
  have apart : d.calls.Nodup := by
    rw [calls hd]
    refine Catalog.pairwise_sitesOf.imp ?_
    rintro s _ lt rfl
    exact Nat.lt_irrefl _ lt
  obtain ⟨i, hi⟩ := mem_calls.1 mem
  -- Another body that calls `s` would be that of its container, since it calls its own sites only.
  refine ⟨i, fun m j => ⟨?_, ?_⟩⟩
  · rintro ⟨d', hd', hj⟩
    have listed : s ∈ p.sitesOf m := calls hd' ▸ mem_calls.2 ⟨j, hj⟩
    obtain ⟨site', hs', rfl⟩ := Catalog.mem_sitesOf.1 listed
    cases hs.symm.trans hs'
    cases hd.symm.trans hd'
    exact ⟨rfl, call_unique apart hj hi⟩
  · rintro ⟨rfl, rfl⟩
    exact ⟨d, hd, hi⟩

/-- Every method of an accepted program has a signature, under which it is found. -/
theorem signature_of_build (built : b.build = .ok p) {d : MethodDecl} (hd : p.methods[m]? = some d) :
    ∃ text, p.signature? m = some text ∧ p.method? text = some m := by
  obtain ⟨texts, found, apart, indexed⟩ := Builder.signatures_of_build built
  have spelled := mapM_eq_some_iff.1 found
  have entry : p.methods.toList[m.index]? = some d := by
    rw [Roster.toList, Array.getElem?_toList]
    exact hd
  obtain ⟨inside, same⟩ := List.getElem?_eq_some_iff.1 entry
  have inside' : m.index < texts.length := spelled.length_eq ▸ inside
  refine ⟨texts[m.index], ?_, ?_⟩
  · have text := spelled.get inside inside'
    change p.refSignature? p.methods.toList[m.index].ref = some texts[m.index] at text
    rw [same] at text
    rw [Catalog.signature?, hd]
    exact text
  · rw [method?, indexed]
    refine Catalog.getElem?_signatureIndex spelled.length_eq.symm apart ?_
    refine List.mem_of_getElem? (i := m.index) (List.getElem?_zip_eq_some.2 ⟨?_, ?_⟩)
    · have known : m.index < p.methods.size := inside
      simp [Roster.ids, Id.firsts, known]
    · exact List.getElem?_eq_getElem inside'

/-- Everything that a method mentions is its own, fields and calls are used as what they are, each
call site is called once and numbered by its container, and everything that is looked up by its name,
its signature or its base is found. -/
structure WellBuilt (p : Program) : Prop where
  mentions : ∀ (m : MethodId) d, p.methods[m]? = some d →
    (∀ s ∈ d.body, ∀ v ∈ Builder.mentioned s, p.Owns m v) ∧ ∀ v ∈ d.returns, p.Owns m v
  sites : ∀ (s : CallSiteId) site, p.callSites[s]? = some site →
    ∀ v ∈ site.vars, p.Owns site.container v
  accesses : ∀ (m : MethodId) d, p.methods[m]? = some d → ∀ s ∈ d.body, p.AccessesWell s
  receivers : ∀ (s : CallSiteId) site, p.callSites[s]? = some site →
    site.base.isSome = site.kind.hasReceiver
  bodiless : ∀ (m : MethodId) d, p.methods[m]? = some d → d.isAbstract = true → d.body = #[]
  /-- Exactly one statement calls a call site, and it stands in the container. -/
  calls : ∀ (s : CallSiteId) site, p.callSites[s]? = some site →
    ∃ i, ∀ m j, p.Calls m j s ↔ m = site.container ∧ j = i
  /-- The call sites of a method, in the order of their ids, are those that its body calls. -/
  listed : ∀ (m : MethodId) d, p.methods[m]? = some d → d.calls = p.sitesOf m
  ranks : ∀ (s : CallSiteId) site, p.callSites[s]? = some site →
    (p.sitesOf site.container)[site.index]? = some s
  signatures : ∀ (m : MethodId) d, p.methods[m]? = some d →
    ∃ text, p.signature? m = some text ∧ p.method? text = some m
  apart : ∀ (m m' : MethodId) text, p.signature? m = some text → p.signature? m' = some text → m = m'
  names : ∀ (t t' : TypeId) name, p.typeName? t = some name → p.typeName? t' = some name → t = t'
  uses : ∀ v : VarId, v.index < p.vars.size → p.varUses v = p.usesAmong p.statements v

/-- Whatever is declared with ids that have been issued: a program that is accepted is well built. -/
theorem wellBuilt_of_build {ds : List Declaration} (issued : Builder.Issues {} ds)
    (built : (Builder.ofDeclarations ds).build = .ok p) : p.WellBuilt := by
  obtain ⟨same, uses, none⟩ := Builder.build_eq_ok built
  have owned := scoped_of_build built
  have orderly : p.toCatalog.Orderly := same ▸ Builder.orderly_ofDeclarations issued none
  have tallies : p.Tallies p.uses p.statements := by
    rw [uses, same]
    exact Catalog.tallies_useIndex
  have signed {m : MethodId} {text : String} (h : p.signature? m = some text) :
      p.method? text = some m := by
    obtain ⟨d, hd, -⟩ := Option.bind_eq_some_iff.1 h
    obtain ⟨text', spelled, found⟩ := signature_of_build built hd
    cases h.symm.trans spelled
    exact found
  exact
    { mentions := fun m d hd => ⟨(owned.methods m d hd).body, (owned.methods m d hd).returns⟩
      sites := owned.sites
      accesses := fun m d hd => (orderly.methods m d hd).accesses
      receivers := fun s site hs => (orderly.sites s site hs).receiver
      bodiless := fun m d hd => (orderly.methods m d hd).bodiless
      calls := fun s site hs => calls_once orderly hs
      listed := fun m d hd => (orderly.methods m d hd).calls
      ranks := fun s site hs => (orderly.sites s site hs).rank
      signatures := fun m d hd => signature_of_build built hd
      apart := fun m m' text h h' => Option.some.inj ((signed h).symm.trans (signed h'))
      names := fun t t' name h h' => by
        obtain ⟨_, ht, rfl⟩ := Option.map_eq_some_iff.1 h
        obtain ⟨_, ht', same⟩ := Option.map_eq_some_iff.1 h'
        exact Table.id_eq_of_key_eq ht ht' same.symm
      uses := fun v known => by rw [varUses, tallies v, if_pos known]; rfl }

end Program

namespace Examples

/-- A class below an interface, with an object that is put into an array and into a static field, and
with calls of three kinds. -/
def drawing : List Declaration :=
  [.type "Shape" (.nominal ⟨none, [], true, true⟩),
   .type "Circle" (.nominal ⟨none, [⟨0⟩], false, false⟩),
   .array ⟨1⟩,
   .field ⟨1⟩ "next" ⟨1⟩ false, .field ⟨1⟩ "last" ⟨1⟩ true,
   .method ⟨⟨0⟩, "draw", [⟨1⟩], some ⟨1⟩⟩ false true,
   .method ⟨⟨1⟩, "draw", [⟨1⟩], some ⟨1⟩⟩ false false,
   .method ⟨⟨1⟩, "main", [], none⟩ true false,
   .var ⟨2⟩ "circle" ⟨1⟩, .var ⟨2⟩ "circles" ⟨2⟩,
   .plain ⟨1⟩ (.loadField ⟨3⟩ ⟨2⟩ ⟨0⟩) rfl,
   .plain ⟨1⟩ (.ret (some ⟨3⟩)) rfl,
   .plain ⟨2⟩ (.new ⟨4⟩ ⟨1⟩) rfl,
   .plain ⟨2⟩ (.storeArray ⟨5⟩ ⟨4⟩) rfl,
   .call ⟨2⟩ .interface ⟨⟨0⟩, "draw", [⟨1⟩], some ⟨1⟩⟩ (some ⟨4⟩) [⟨4⟩] (some ⟨4⟩),
   .call ⟨1⟩ .static ⟨⟨1⟩, "main", [], none⟩ none [] none,
   .dynamicCall ⟨2⟩ ⟨.stringConcat, none⟩ "text" none [⟨4⟩] none,
   .plain ⟨2⟩ (.storeStatic ⟨1⟩ ⟨4⟩) rfl,
   .entry ⟨2⟩]

end Examples

open Examples in
theorem Program.wellBuilt_of_build_drawing : Builder.Issues {} drawing ∧
    (Builder.ofDeclarations drawing).build = .ok (.ofDeclarations drawing) ∧
    (Program.ofDeclarations drawing).WellBuilt := by
  have issued : Builder.Issues {} drawing := by decide +kernel
  have built : (Builder.ofDeclarations drawing).build = .ok (.ofDeclarations drawing) :=
    build_ofDeclarations (by decide +kernel)
  exact ⟨issued, built, wellBuilt_of_build issued built⟩

end PointsTo
