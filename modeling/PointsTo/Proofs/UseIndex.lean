import PointsTo.Program.Builder
import PointsTo.Proofs.Contributions

/-!
The use index of a complete program holds exactly the statements that wait for each variable.
-/
namespace PointsTo

namespace Roster

variable {kind : Entity} {α : Type} {r : Roster kind α} {i j : Id kind}

theorem getElem?_modify {f : α → α} :
    (r.modify i f)[j]? = if i = j then r[j]?.map f else r[j]? := by
  change (r.entries.modify i.index f)[j.index]? = if i = j then r.entries[j.index]?.map f else _
  rw [Array.getElem?_modify]
  simp only [Id.ext_iff]
  rfl

theorem getElem?_replicate {n : Nat} {a : α} :
    (Roster.replicate n a : Roster kind α)[j]? = if j.index < n then some a else none :=
  Array.getElem?_replicate

theorem mem_toList_iff {a : α} : a ∈ r.toList ↔ ∃ i : Id kind, r[i]? = some a := by
  rw [toList, Array.mem_toList_iff, Array.mem_iff_getElem?]
  exact ⟨fun ⟨n, h⟩ => ⟨⟨n⟩, h⟩, fun ⟨i, h⟩ => ⟨i.index, h⟩⟩

end Roster

namespace Catalog

variable {c : Catalog}

/-- All statements of all bodies. -/
def statements (c : Catalog) : List Statement := c.methods.toList.flatMap fun m => m.body.toList

theorem mem_statements {s : Statement} : s ∈ c.statements ↔ c.Contains s := by
  simp only [statements, List.mem_flatMap, Roster.mem_toList_iff, Array.mem_toList_iff, Contains]
  constructor
  · rintro ⟨d, ⟨m, hm⟩, hs⟩
    exact ⟨m, d, hm, hs⟩
  · rintro ⟨m, d, hm, hs⟩
    exact ⟨d, ⟨m, hm⟩, hs⟩

instance {s : Statement} : Decidable (c.Contains s) := decidable_of_iff _ mem_statements

theorem useIndex_eq :
    c.useIndex = c.statements.foldl c.recordUse (.replicate c.vars.size {}) := by
  rw [statements, List.foldl_flatMap]
  rfl

/-- The uses of a variable hold what waits for it among the given statements. -/
structure Lists (c : Catalog) (l : List Statement) (v : VarId) (u : VarUses) : Prop where
  loads : ∀ field lhs, (field, lhs) ∈ u.loads ↔ .loadField lhs v field ∈ l
  stores : ∀ field rhs, (field, rhs) ∈ u.stores ↔ .storeField v field rhs ∈ l
  arrayLoads : ∀ lhs, lhs ∈ u.arrayLoads ↔ .loadArray lhs v ∈ l
  arrayStores : ∀ rhs, rhs ∈ u.arrayStores ↔ .storeArray v rhs ∈ l
  invokes : ∀ site, site ∈ u.invokes ↔ .invoke site ∈ l ∧ c.base? (.invoke site) = some v

/-- A statement that does not wait for a variable leaves its uses as they are. -/
theorem Lists.other {l : List Statement} {v : VarId} {u : VarUses} {s : Statement}
    (h : c.Lists l v u) (other : c.base? s ≠ some v) : c.Lists (l ++ [s]) v u where
  loads field lhs := by
    rw [h.loads, List.mem_append, List.mem_singleton]
    exact ⟨.inl, fun h => h.resolve_right (by rintro rfl; exact other rfl)⟩
  stores field rhs := by
    rw [h.stores, List.mem_append, List.mem_singleton]
    exact ⟨.inl, fun h => h.resolve_right (by rintro rfl; exact other rfl)⟩
  arrayLoads lhs := by
    rw [h.arrayLoads, List.mem_append, List.mem_singleton]
    exact ⟨.inl, fun h => h.resolve_right (by rintro rfl; exact other rfl)⟩
  arrayStores rhs := by
    rw [h.arrayStores, List.mem_append, List.mem_singleton]
    exact ⟨.inl, fun h => h.resolve_right (by rintro rfl; exact other rfl)⟩
  invokes site := by
    rw [h.invokes, List.mem_append, List.mem_singleton]
    refine and_congr_left fun base => ⟨.inl, fun h => h.resolve_right ?_⟩
    rintro rfl
    exact other base

theorem recordUse_invoke {uses : Roster .var VarUses} {site : CallSiteId} :
    c.recordUse uses (.invoke site) =
      match c.base? (.invoke site) with
      | some base => uses.modify base fun u => { u with invokes := u.invokes ++ [site] }
      | none => uses := by
  unfold recordUse base?
  dsimp only
  cases c.callSites[site]? with
  | none => rfl
  | some decl =>
    rw [Option.bind_some]
    dsimp only
    cases hb : decl.base <;> cases decl.kind.isDispatched <;> rfl

/-- Recording a statement adds it to the uses of the variable that it waits for. -/
theorem lists_recordUse {l : List Statement} {uses : Roster .var VarUses} {s : Statement}
    (h : ∀ (v : VarId) u, uses[v]? = some u → c.Lists l v u) (v : VarId) {u : VarUses}
    (hu : (c.recordUse uses s)[v]? = some u) : c.Lists (l ++ [s]) v u := by
  -- `grown` is the case of a statement that waits for `base`
  have grown {base : VarId} {f : VarUses → VarUses} (waits : c.base? s = some base)
      (step : ∀ w, c.Lists l base w → c.Lists (l ++ [s]) base (f w))
      (hu : (uses.modify base f)[v]? = some u) : c.Lists (l ++ [s]) v u := by
    rw [Roster.getElem?_modify] at hu
    split at hu
    next same =>
      subst same
      obtain ⟨w, hw, rfl⟩ := Option.map_eq_some_iff.1 hu
      exact step w (h base w hw)
    next differ =>
      refine (h v u hu).other fun eq => differ ?_
      exact Option.some.inj (waits.symm.trans eq)
  cases s with
  | loadField lhs base field =>
    exact grown rfl (fun w hw => ⟨by simp [hw.loads, and_comm], by simp [hw.stores],
      by simp [hw.arrayLoads], by simp [hw.arrayStores], by simp [hw.invokes]⟩) hu
  | storeField base field rhs =>
    exact grown rfl (fun w hw => ⟨by simp [hw.loads], by simp [hw.stores],
      by simp [hw.arrayLoads], by simp [hw.arrayStores], by simp [hw.invokes]⟩) hu
  | loadArray lhs base =>
    exact grown rfl (fun w hw => ⟨by simp [hw.loads], by simp [hw.stores],
      by simp [hw.arrayLoads], by simp [hw.arrayStores], by simp [hw.invokes]⟩) hu
  | storeArray base rhs =>
    exact grown rfl (fun w hw => ⟨by simp [hw.loads], by simp [hw.stores],
      by simp [hw.arrayLoads], by simp [hw.arrayStores], by simp [hw.invokes]⟩) hu
  | invoke site =>
    rw [recordUse_invoke] at hu
    cases waits : c.base? (.invoke site) with
    | none =>
      rw [waits] at hu
      exact (h v u hu).other fun eq => by cases waits.symm.trans eq
    | some base =>
      rw [waits] at hu
      refine grown waits (fun w hw => ⟨by simp [hw.loads], by simp [hw.stores],
        by simp [hw.arrayLoads], by simp [hw.arrayStores], fun site' => ?_⟩) hu
      rw [List.mem_append, List.mem_append, List.mem_singleton, List.mem_singleton, hw.invokes,
        Statement.invoke.injEq, or_and_right]
      refine or_congr_right ⟨?_, And.left⟩
      rintro rfl
      exact ⟨rfl, waits⟩
  | _ => exact (h v u hu).other fun eq => by cases eq

theorem getElem?_recordUse {uses : Roster .var VarUses} {s : Statement} {v : VarId} {u : VarUses}
    (hu : (c.recordUse uses s)[v]? = some u) : ∃ w, uses[v]? = some w := by
  have modified {base : VarId} {f : VarUses → VarUses} (hu : (uses.modify base f)[v]? = some u) :
      ∃ w, uses[v]? = some w := by
    rw [Roster.getElem?_modify] at hu
    split at hu
    · exact (Option.map_eq_some_iff.1 hu).imp fun _ => And.left
    · exact ⟨u, hu⟩
  cases s with
  | loadField | storeField | loadArray | storeArray => exact modified hu
  | invoke site =>
    rw [recordUse_invoke] at hu
    split at hu
    · exact modified hu
    · exact ⟨u, hu⟩
  | _ => exact ⟨u, hu⟩

theorem lists_useIndex {v : VarId} {u : VarUses} (hu : c.useIndex[v]? = some u) :
    c.Lists c.statements v u ∧ v.index < c.vars.size := by
  have run (l done : List Statement) (uses : Roster .var VarUses)
      (h : ∀ (v : VarId) w, uses[v]? = some w → c.Lists done v w ∧ v.index < c.vars.size)
      (hu : (l.foldl c.recordUse uses)[v]? = some u) :
      c.Lists (done ++ l) v u ∧ v.index < c.vars.size := by
    induction l generalizing done uses with
    | nil =>
      rw [List.append_nil]
      exact h v u hu
    | cons s l ih =>
      rw [List.append_cons]
      refine ih (done ++ [s]) _ (fun v w hw => ?_) hu
      obtain ⟨w', hw'⟩ := getElem?_recordUse hw
      exact ⟨lists_recordUse (fun v w hw => (h v w hw).1) v hw, (h v w' hw').2⟩
  rw [useIndex_eq] at hu
  refine run c.statements [] _ (fun v w hw => ?_) hu
  rw [Roster.getElem?_replicate] at hw
  split at hw
  next lt =>
    cases hw
    exact ⟨⟨by simp, by simp, by simp, by simp, by simp⟩, lt⟩
  next => cases hw

end Catalog

/-- What a finished construction consists of. -/
theorem Builder.build_eq_ok {b : Builder} {p : Program} (built : b.build = .ok p) :
    p.toCatalog = b.catalog ∧ p.uses = b.catalog.useIndex ∧ b.problems = [] := by
  unfold build at built
  split at built
  next => cases built
  next signatures _ =>
    split at built
    next none =>
      cases built
      exact ⟨rfl, rfl, (List.append_eq_nil_iff.1 none).1⟩
    next => cases built

theorem Program.indexed_of_uses {p : Program} (uses : p.uses = p.useIndex) : p.Indexed := by
  have lists {v : VarId} {u : VarUses} (hu : p.uses[v]? = some u) :
      p.Lists p.statements v u ∧ v.index < p.vars.size := Catalog.lists_useIndex (uses ▸ hu)
  refine ⟨fun v u hu => ?_, fun v u hu field lhs => ?_, fun v u hu field rhs => ?_,
    fun v u hu lhs => ?_, fun v u hu rhs => ?_, fun v u hu site => ?_⟩
  · exact ⟨_, Array.getElem?_eq_getElem (lists hu).2⟩
  · rw [(lists hu).1.loads, Catalog.mem_statements]
  · rw [(lists hu).1.stores, Catalog.mem_statements]
  · rw [(lists hu).1.arrayLoads, Catalog.mem_statements]
  · rw [(lists hu).1.arrayStores, Catalog.mem_statements]
  · rw [(lists hu).1.invokes, Catalog.mem_statements]

theorem Program.indexed_of_build {b : Builder} {p : Program} (built : b.build = .ok p) :
    p.Indexed := by
  obtain ⟨same, uses, -⟩ := Builder.build_eq_ok built
  exact indexed_of_uses (by rw [uses, same])

end PointsTo
