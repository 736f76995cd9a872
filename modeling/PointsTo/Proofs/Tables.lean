import PointsTo.Context.Elements

/-!
Tables only grow: every id keeps its entry, and two ids never share a key.
-/
namespace PointsTo

namespace Table

variable {ε κ : Type} [Coded κ] {kind : Entity} {key : ε → κ} {t u v : Table kind key}
  {a b e : ε} {i j : Id kind} {k : κ}

/-- All entries of a table are entries of another one, under the same ids. -/
def Within (t u : Table kind key) : Prop := ∀ i a, t.get? i = some a → u.get? i = some a

theorem Within.refl (t : Table kind key) : t.Within t := fun _ _ => id

theorem Within.trans (tu : t.Within u) (uv : u.Within v) : t.Within v :=
  fun i a h => uv i a (tu i a h)

theorem find?_eq_some_iff : t.find? k = some i ↔ ∃ a, t.get? i = some a ∧ key a = k := by
  simp only [find?, Option.map_eq_some_iff, t.positions_iff, get?]
  constructor
  · rintro ⟨n, ⟨a, ha, rfl⟩, rfl⟩
    exact ⟨a, ha, rfl⟩
  · rintro ⟨a, ha, rfl⟩
    exact ⟨i.index, ⟨a, ha, rfl⟩, rfl⟩

theorem id_eq_of_key_eq (ha : t.get? i = some a) (hb : t.get? j = some b) (same : key a = key b) :
    i = j := by
  have hi := find?_eq_some_iff.2 ⟨a, ha, rfl⟩
  have hj := find?_eq_some_iff.2 ⟨b, hb, same.symm⟩
  exact Option.some.inj (hi.symm.trans hj)

theorem contains_iff : t.contains k = true ↔ ∃ i a, t.get? i = some a ∧ key a = k := by
  simp only [← find?_eq_some_iff, contains, find?, Std.TreeMap.contains_eq_isSome_getElem?,
    Option.isSome_iff_exists, Option.map_eq_some_iff]
  exact ⟨fun ⟨n, hn⟩ => ⟨⟨n⟩, n, hn, rfl⟩, fun ⟨_, n, hn, _⟩ => ⟨n, hn⟩⟩

theorem exists_of_position {n : Nat} (h : t.positions[k]? = some n) :
    ∃ a, t.get? ⟨n⟩ = some a ∧ key a = k :=
  Option.map_eq_some_iff.1 ((t.positions_iff k n).1 h)

theorem key_ne_of_fresh (fresh : t.positions[k]? = none) (ha : t.get? i = some a) : key a ≠ k := by
  intro same
  have found := find?_eq_some_iff.2 ⟨a, ha, same⟩
  rw [find?, fresh] at found
  cases found

theorem isSome_get?_iff : (t.get? i).isSome ↔ i.index < t.size := by
  rw [get?, size, Option.isSome_iff_ne_none, ne_eq, Array.getElem?_eq_none_iff, Nat.not_le]

theorem mem_ids : i ∈ t.ids ↔ ∃ a, t.get? i = some a := by
  rw [ids, Id.mem_firsts, ← isSome_get?_iff, Option.isSome_iff_exists]

theorem mem_toList_iff : a ∈ t.toList ↔ ∃ i, t.get? i = some a := by
  rw [toList, Array.mem_toList_iff, Array.mem_iff_getElem?]
  exact ⟨fun ⟨i, ha⟩ => ⟨⟨i⟩, ha⟩, fun ⟨i, ha⟩ => ⟨i.index, ha⟩⟩

theorem filterMap_range_getElem? (l : List ε) :
    (List.range l.length).filterMap (fun i => l[i]?) = l := by
  induction l with
  | nil => rfl
  | cons a l ih => simpa [List.range_succ_eq_map, List.filterMap_map, Function.comp_def] using ih

theorem filterMap_ids (t : Table kind key) : t.ids.filterMap t.get? = t.toList := by
  have all := filterMap_range_getElem? t.toList
  simpa [ids, Id.firsts, List.filterMap_map, Function.comp_def, get?, toList, size] using all

theorem filterMap_idsWhere (t : Table kind key) (p : ε → Bool) :
    (t.idsWhere p).filterMap t.get? = t.toList.filter p := by
  rw [idsWhere, List.filterMap_filter, ← filterMap_ids, List.filter_filterMap]
  congr 1
  funext i
  cases t.get? i <;> simp [Option.filter]

theorem get?_push (fresh : t.positions[key e]? = none) :
    (t.push e fresh).get? i = some a ↔ t.get? i = some a ∨ i = ⟨t.size⟩ ∧ e = a := by
  simp only [get?, push, Array.getElem?_push, size, Id.ext_iff]
  split
  next last =>
    rw [last]
    simp
  next other => simp [other]

theorem within_push (fresh : t.positions[key e]? = none) : t.Within (t.push e fresh) :=
  fun _ _ h => get?_push_of_get? h

/-- `intern` gives the id of an entry with the key it is asked for, and adds at most that entry. -/
theorem intern_spec (t : Table kind key) (e : ε) :
    t.Within (t.intern e).2 ∧
      (∃ a, (t.intern e).2.get? (t.intern e).1 = some a ∧ key a = key e ∧
        (t.get? (t.intern e).1 = some a ∨ a = e)) ∧
      ∀ i a, (t.intern e).2.get? i = some a → t.get? i = some a ∨ i = (t.intern e).1 ∧ a = e := by
  unfold intern
  split
  next i h =>
    obtain ⟨a, ha, same⟩ := exists_of_position h
    exact ⟨Within.refl t, ⟨a, ha, same, .inl ha⟩, fun j b hb => .inl hb⟩
  next fresh =>
    refine ⟨within_push fresh, ⟨e, (get?_push fresh).2 (.inr ⟨rfl, rfl⟩), rfl, .inr rfl⟩, ?_⟩
    intro i a h
    exact ((get?_push fresh).1 h).imp_right fun ⟨hi, he⟩ => ⟨hi, he.symm⟩

theorem within_intern : t.Within (t.intern e).2 := (t.intern_spec e).1

/-- `intern` finds the entry of a key, or it adds one behind all others. -/
theorem intern_cases (t : Table kind key) (e : ε) :
    (∃ i, t.find? (key e) = some i ∧ t.intern e = (i, t)) ∨
      t.find? (key e) = none ∧ (t.intern e).1 = ⟨t.size⟩ ∧
        ∀ i a, (t.intern e).2.get? i = some a ↔ t.get? i = some a ∨ i = ⟨t.size⟩ ∧ e = a := by
  unfold intern
  split
  next i found => exact .inl ⟨⟨i⟩, by rw [find?, found]; rfl, rfl⟩
  next fresh => exact .inr ⟨by rw [find?, fresh]; rfl, rfl, fun i a => get?_push fresh⟩

theorem intern_of_find? (found : t.find? (key e) = some i) : t.intern e = (i, t) := by
  obtain ⟨j, found', same⟩ | ⟨missing, -⟩ := t.intern_cases e
  · rw [same, Option.some.inj (found.symm.trans found')]
  · cases found.symm.trans missing

theorem Within.find? (h : t.Within u) (found : t.find? k = some i) : u.find? k = some i := by
  obtain ⟨a, ha, same⟩ := find?_eq_some_iff.1 found
  exact find?_eq_some_iff.2 ⟨a, h i a ha, same⟩

/-- A table that grows is listed further. -/
theorem Within.isPrefix (h : t.Within u) : t.toList <+: u.toList := by
  rw [List.prefix_iff_getElem?]
  intro i lt
  have found : t.get? ⟨i⟩ = some t.toList[i] := by
    rw [get?, ← Array.getElem?_toList]
    exact List.getElem?_eq_getElem lt
  have kept := h ⟨i⟩ _ found
  rwa [get?, ← Array.getElem?_toList] at kept

/-- `add` adds an entry exactly when its key is new. -/
theorem add_spec (t : Table kind key) (e : ε) :
    ((t.add e).1 = none ∧ (t.add e).2 = t ∧ ∃ i a, t.get? i = some a ∧ key a = key e) ∨
      ((t.add e).1 = some ⟨t.size⟩ ∧ (∀ i a, t.get? i = some a → key a ≠ key e) ∧
        ∀ i a, (t.add e).2.get? i = some a ↔ t.get? i = some a ∨ i = ⟨t.size⟩ ∧ e = a) := by
  unfold add
  split
  next i h =>
    obtain ⟨a, ha, same⟩ := exists_of_position h
    exact .inl ⟨rfl, rfl, ⟨i⟩, a, ha, same⟩
  next fresh =>
    exact .inr ⟨rfl, fun i a ha => key_ne_of_fresh fresh ha, fun i a => get?_push fresh⟩

/-! ### Tables whose entries are their own keys -/

variable {α : Type} [Coded α] {d : DistinctTable kind α} {x y : α}

theorem get?_intern_self : (d.intern x).2.get? (d.intern x).1 = some x := by
  obtain ⟨-, ⟨a, ha, same, -⟩, -⟩ := d.intern_spec x
  rwa [show a = x from same] at ha

theorem get?_of_find? (h : d.find? x = some i) : d.get? i = some x := by
  obtain ⟨a, ha, same⟩ := find?_eq_some_iff.1 h
  rwa [show a = x from same] at ha

theorem find?_of_get? (h : d.get? i = some x) : d.find? x = some i :=
  find?_eq_some_iff.2 ⟨x, h, rfl⟩

end Table

namespace ContextTable

variable {t : ContextTable} {c : Context}

theorem get?_emptyId : t.get? emptyId = some [] := t.first_eq

theorem get?_intern : (t.intern c).2.get? (t.intern c).1 = some c := Table.get?_intern_self

end ContextTable

namespace CopyTable

variable {kind copy : Entity} {t : CopyTable kind copy} {c : ContextId} {e : Id kind}

theorem intern_eq (t : CopyTable kind copy) (c : ContextId) (e : Id kind) :
    (t.intern c e).1 = (t.table.intern ⟨c, e⟩).1 ∧
      (t.intern c e).2.table = (t.table.intern ⟨c, e⟩).2 := by
  unfold intern Table.intern
  dsimp only
  split
  next i h =>
    split
    next j hj =>
      cases h.symm.trans hj
      exact ⟨rfl, rfl⟩
    next hn => cases h.symm.trans hn
  next h =>
    split
    next j hj => cases h.symm.trans hj
    next => exact ⟨rfl, rfl⟩

theorem intern_of_find? {i : Id copy} (found : t.find? c e = some i) : t.intern c e = (i, t) := by
  obtain ⟨n, position, rfl⟩ := Option.map_eq_some_iff.1 found
  unfold intern
  dsimp only
  split
  next m position' => rw [Option.some.inj (position.symm.trans position')]
  next missing => cases position.symm.trans missing

theorem get?_intern : (t.intern c e).2.get? (t.intern c e).1 = some ⟨c, e⟩ := by
  rw [get?, (t.intern_eq c e).1, (t.intern_eq c e).2]
  exact Table.get?_intern_self

theorem within_intern : t.table.Within (t.intern c e).2.table := by
  rw [(t.intern_eq c e).2]
  exact Table.within_intern

theorem get?_of_intern {i : Id copy} {a : InContext kind} (h : (t.intern c e).2.get? i = some a) :
    t.get? i = some a ∨ a = ⟨c, e⟩ := by
  rw [get?, (t.intern_eq c e).2] at h
  exact ((t.table.intern_spec ⟨c, e⟩).2.2 i a h).imp_right And.right

end CopyTable

namespace Elements

/-- Everything that has an id keeps it. -/
structure Within (e f : Elements) : Prop where
  contexts : e.contexts.table.Within f.contexts.table
  heap : Table.Within e.heap f.heap
  vars : e.vars.table.Within f.vars.table
  objects : e.objects.table.Within f.objects.table
  methods : e.methods.table.Within f.methods.table
  sites : e.sites.table.Within f.sites.table

theorem Within.refl (e : Elements) : e.Within e := by
  constructor <;> exact Table.Within.refl _

theorem Within.trans {e f g : Elements} (ef : e.Within f) (fg : f.Within g) : e.Within g where
  contexts := ef.contexts.trans fg.contexts
  heap := Table.Within.trans ef.heap fg.heap
  vars := ef.vars.trans fg.vars
  objects := ef.objects.trans fg.objects
  methods := ef.methods.trans fg.methods
  sites := ef.sites.trans fg.sites

variable {e : Elements}

theorem within_internContext {c : Context} : e.Within (e.internContext c).2 :=
  { Within.refl e with contexts := Table.within_intern }

theorem within_internVar {c : ContextId} {v : VarId} : e.Within (e.internVar c v).2 :=
  { Within.refl e with vars := CopyTable.within_intern }

theorem within_internObject {c : ContextId} {o : ObjectId} : e.Within (e.internObject c o).2 :=
  { Within.refl e with objects := CopyTable.within_intern }

theorem within_internMethod {c : ContextId} {m : MethodId} : e.Within (e.internMethod c m).2 :=
  { Within.refl e with methods := CopyTable.within_intern }

theorem within_internSite {c : ContextId} {s : CallSiteId} : e.Within (e.internSite c s).2 :=
  { Within.refl e with sites := CopyTable.within_intern }

theorem within_allocate {m : MethodId} {i : Nat} {type : TypeId} :
    e.Within (e.allocate m i type).2 :=
  { Within.refl e with heap := Table.within_intern }

theorem within_mock {description : String} {site : CallSiteId} {type : TypeId}
    {container : Option MethodId} : e.Within (e.mock description site type container).2 :=
  { Within.refl e with heap := Table.within_intern }

end Elements
end PointsTo
