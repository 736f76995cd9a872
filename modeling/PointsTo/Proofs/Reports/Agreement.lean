import Mathlib.Data.String.Basic
import PointsTo.Proofs.Calls.Views
import PointsTo.Proofs.Reports.Relation
import PointsTo.Proofs.Safety.Issuing
import PointsTo.Report.Sets
import PointsTo.Report.Statistics

/-!
What is reported of a result is what the result answers. The statistics count the variables that have an
answer and what the answers list, and the text of the points-to sets has a row for each of these variables
below the signature of its method.
-/
namespace PointsTo

open Analysis Facts

/-! ### Statistics -/

/-- The numbers are those of the answers for the variables of the program, of the sets of the pointers
and of the methods that are reached. -/
structure Statistics.Counts (t : Statistics) (s : Solver) (answers : VarId → List ObjectId) : Prop where
  answered : t.merged.pointers = (s.program.vars.ids.filter fun v => answers v ≠ []).length
  relations : t.merged.relations = (s.program.vars.ids.map fun v => (answers v).length).sum
  /-- Fields, array elements and static fields count as well. -/
  pointers : ∃ qs : List Pointer, qs.Nodup ∧ (∀ q, q ∈ qs ↔ ∃ o, o ∈ s.pointsTo q) ∧
    t.contextual.pointers = qs.length ∧
    t.contextual.relations = (qs.map fun q => (s.pointsTo q).toList.length).sum
  methods : ∃ ms : List MethodId, ms.Nodup ∧
    (∀ m, m ∈ ms ↔ ∃ cm ∈ s.calls.reached.toList, s.methodOf? cm = some m) ∧ t.methods = ms.length
  contextMethods : t.contextMethods = s.calls.reached.toList.length
  methods_le : t.methods ≤ t.contextMethods

namespace Solver

variable {s : Solver}

theorem nodup_inhabited : (s.inhabited.map Prod.fst).Nodup := by
  have all : (s.flows.nodes.toList.map fun q => (q, s.pointsTo q)).map Prod.fst =
      s.flows.nodes.toList := by rw [List.map_map]; exact List.map_id _
  have nodup : s.flows.nodes.toList.Nodup := by simpa using s.flows.nodes.nodup_keys
  exact (all ▸ nodup).sublist (List.filter_sublist.map Prod.fst)

theorem mem_inhabited_map {q : Pointer} : q ∈ s.inhabited.map Prod.fst ↔ ∃ o, o ∈ s.pointsTo q := by
  constructor
  · intro mem
    obtain ⟨⟨q, objects⟩, here, rfl⟩ := List.mem_map.1 mem
    obtain ⟨rfl, filled⟩ := mem_inhabited.1 here
    exact filled
  · intro filled
    exact List.mem_map.2 ⟨(q, s.pointsTo q), mem_inhabited.2 ⟨rfl, filled⟩, rfl⟩

theorem relations_extent : (Statistics.extent s).relations =
    ((s.inhabited.map Prod.fst).map fun q => (s.pointsTo q).toList.length).sum := by
  have counts : s.inhabited.map (fun entry => entry.2.count) =
      (s.inhabited.map Prod.fst).map fun q => (s.pointsTo q).toList.length := by
    rw [List.map_map]
    refine List.map_congr_left fun ⟨q, objects⟩ here => ?_
    obtain ⟨rfl, -⟩ := mem_inhabited.1 here
    exact HybridSet.length_toList.symm
  rw [← counts, List.sum_eq_foldl, List.foldl_map]
  rfl

theorem nodup_reachedMethods : s.reachedMethods.toList.Nodup :=
  Std.TreeSet.distinct_toList.imp fun apart same => apart (Coded.compare_eq_iff.2 same)

theorem Tallied.mem_reachedMethods (h : s.Tallied) {m : MethodId} :
    m ∈ s.reachedMethods.toList ↔ ∃ cm ∈ s.calls.reached.toList, s.methodOf? cm = some m := by
  rw [Std.TreeSet.mem_toList, ← mem_reachableMethods_iff]
  exact h.mem_reachableMethods

/-- Every method that is reached is reached in some context. -/
theorem Tallied.length_reachedMethods_le (h : s.Tallied) :
    s.reachedMethods.toList.length ≤ s.calls.reached.toList.length := by
  have among : s.reachedMethods.toList ⊆ s.calls.reached.toList.filterMap s.methodOf? :=
    fun m mem => List.mem_filterMap.2 (h.mem_reachedMethods.1 mem)
  exact (List.subperm_of_subset nodup_reachedMethods among).length_le.trans
    (List.length_filterMap_le ..)

end Solver

namespace Grounded

variable {p : Program} {sel : Selector} {s : Solver} {answers : VarId → List ObjectId}
  (hs : Grounded p sel none s) (asked : ∀ v, s.objectsOf? v = some (answers v))
include hs asked

theorem groups_pairs {pairs : List (VarId × ObjectId)} (found : s.pairs? = some pairs) :
    groups pairs = (p.vars.ids.filter fun v => answers v ≠ []).map fun v => (v, answers v) := by
  cases found.symm.trans (hs.pairs_eq asked)
  exact groups_flatMap (Id.nodup_of_pairwise Id.pairwise_firsts) answers

theorem counts (tallied : s.Tallied) : ∃ t, Statistics.of? s = some t ∧ t.Counts s answers := by
  refine ⟨_, by rw [Statistics.of?, hs.pairs_eq asked]; rfl, ?_⟩
  have merged := hs.groups_pairs asked (hs.pairs_eq asked)
  exact
    { answered := by
        rw [hs.program]
        exact (congrArg List.length merged).trans (List.length_map _)
      relations := by
        rw [hs.program]
        simp only [Statistics.mergedExtent, List.length_flatMap, List.length_map]
      pointers := ⟨s.inhabited.map Prod.fst, Solver.nodup_inhabited,
        fun q => Solver.mem_inhabited_map, (List.length_map _).symm, Solver.relations_extent⟩
      methods := ⟨s.reachedMethods.toList, Solver.nodup_reachedMethods,
        fun m => tallied.mem_reachedMethods, Std.TreeSet.length_toList.symm⟩
      contextMethods := Array.length_toList.symm
      methods_le := by
        change s.reachedMethods.size ≤ s.calls.reached.entries.size
        rw [← Std.TreeSet.length_toList, ← Array.length_toList]
        exact tallied.length_reachedMethods_le }

end Grounded

/-! ### Texts -/

/-- Objects can be shown. -/
theorem Catalog.Makes.exists_text {c : Catalog} (sealing : c.Sealed) {a : AbstractObject}
    (makes : c.Makes a) : ∃ text, c.objectText? a = some text := by
  obtain ⟨type, htype⟩ := typeName?_of_lt makes.type
  have origin := makes.origin
  unfold objectText?
  rw [htype]
  split
  next m i allocated =>
    rw [allocated] at origin
    obtain ⟨d, hd, -⟩ := origin
    obtain ⟨text, signature⟩ := sealing.signature? (Roster.lt_size hd)
    exact ⟨_, by rw [signature]; rfl⟩
  next description site made =>
    rw [made] at origin
    obtain ⟨d, hd⟩ := Roster.exists_getElem? origin.2
    obtain ⟨text, shown⟩ := sealing.siteText? hd
    exact ⟨_, by rw [shown]; rfl⟩

theorem pairwise_ascending_texts (texts : List String) :
    (ascending (fun a b => decide (a ≤ b)) texts).Pairwise (· < ·) := by
  refine (ascends_ascending ?_ ?_ ?_ texts).imp fun ⟨le, ne⟩ =>
    lt_of_le_of_ne (of_decide_eq_true le) ne
  · intro a b
    rw [Bool.or_eq_true, decide_eq_true_iff, decide_eq_true_iff]
    exact le_total a b
  · intro a b c ab bc
    exact decide_eq_true ((of_decide_eq_true ab).trans (of_decide_eq_true bc))
  · intro a b ab ba
    exact le_antisymm (of_decide_eq_true ab) (of_decide_eq_true ba)

namespace Report

/-- The row of a variable has its name, and lists the texts of the given objects in ascending order. -/
structure Row.Shows (r : Row) (s : Solver) (v : VarId) (objects : List ObjectId) : Prop where
  name : ∃ decl, s.program.vars[v]? = some decl ∧ r.name = decl.name
  ordered : r.objects.Pairwise (· < ·)
  texts : ∀ text, text ∈ r.objects ↔ ∃ o ∈ objects, ∃ a, s.elements.heap.get? o = some a ∧
    s.catalog.objectText? a = some text
  complete : ∀ o ∈ objects, ∃ a text, s.elements.heap.get? o = some a ∧
    s.catalog.objectText? a = some text

/-- The variables of a method that have answers, in the order of their ids. -/
def shown (p : Program) (answers : VarId → List ObjectId) (m : MethodId) : List VarId :=
  p.vars.ids.filter fun v => (p.vars[v]?).map VarDecl.method = some m ∧ answers v ≠ []

/-- The text has a section for each method of which a variable is shown, in the order of the methods,
and a row for each variable that is shown, in the order of the variables. -/
structure Renders (text : String) (s : Solver) (answers : VarId → List ObjectId)
    (signature : MethodId → String) (row : VarId → Row) : Prop where
  /-- Every variable that has an answer is shown once, in the section of its method. -/
  owned : ∀ v, answers v ≠ [] → ∃ m ∈ s.program.methods.ids, v ∈ shown s.program answers m
  signatures : ∀ m, shown s.program answers m ≠ [] → s.catalog.signature? m = some (signature m)
  rows : ∀ v, answers v ≠ [] → (row v).Shows s v (answers v)
  text : text = String.join
    ((s.program.methods.ids.filter fun m => shown s.program answers m ≠ []).map fun m =>
      signature m ++ ":\n" ++ String.join ((shown s.program answers m).map fun v => (row v).text))

theorem mem_shown {p : Program} {answers : VarId → List ObjectId} {m : MethodId} {v : VarId} :
    v ∈ shown p answers m ↔
      ∃ decl, p.vars[v]? = some decl ∧ decl.method = m ∧ answers v ≠ [] := by
  rw [shown, List.mem_filter, decide_eq_true_iff, Option.map_eq_some_iff]
  constructor
  · rintro ⟨-, ⟨decl, hd, own⟩, filled⟩
    exact ⟨decl, hd, own, filled⟩
  · rintro ⟨decl, hd, own, filled⟩
    exact ⟨Id.mem_firsts.2 (Roster.lt_size hd), ⟨decl, hd, own⟩, filled⟩

end Report

namespace Grounded

variable {p : Program} {sel : Selector} {s : Solver} {answers : VarId → List ObjectId}
  (hs : Grounded p sel none s)
include hs

theorem exists_objectText {v : VarId} {o : ObjectId} (refers : s.Refers v o) :
    ∃ a text, s.elements.heap.get? o = some a ∧ s.catalog.objectText? a = some text := by
  obtain ⟨a, ha⟩ := hs.exists_object refers
  obtain ⟨text, shown⟩ := (hs.elements.heap o a ha).exists_text hs.wellFormed.complete
  exact ⟨a, text, ha, by rw [Solver.catalog, hs.program]; exact shown⟩

/-- A variable that refers to objects has a row, in a method of the program. -/
theorem row? {v : VarId} {objects : List ObjectId} (filled : objects ≠ [])
    (refers : ∀ o ∈ objects, s.Refers v o) : ∃ decl r, p.vars[v]? = some decl ∧
      decl.method.index < p.methods.size ∧ Report.row? s v objects = some (decl.method, r) ∧
      r.Shows s v objects := by
  obtain ⟨o, mem⟩ := List.exists_mem_of_ne_nil objects filled
  obtain ⟨decl, hd, lt⟩ := hs.exists_decl (refers o mem)
  have declared : s.program.vars[v]? = some decl := hs.program ▸ hd
  have complete : ∀ o ∈ objects, ∃ a text, s.elements.heap.get? o = some a ∧
      s.catalog.objectText? a = some text := fun o mem => hs.exists_objectText (refers o mem)
  have known : ∀ o ∈ objects, ∃ text,
      (do s.catalog.objectText? (← s.elements.heap.get? o) : Option String) = some text := by
    intro o mem
    obtain ⟨a, text, ha, shown⟩ := complete o mem
    exact ⟨text, by rw [ha]; exact shown⟩
  obtain ⟨texts, found, listed⟩ := exists_mapM known
  refine ⟨decl, ⟨decl.name, ascending (fun a b => decide (a ≤ b)) texts⟩, hd, lt, ?_, ?_⟩
  · have declared : s.catalog.vars[v]? = some decl := declared
    rw [Report.row?, declared, found]
    rfl
  · refine ⟨⟨decl, declared, rfl⟩, pairwise_ascending_texts texts, fun text => ?_, complete⟩
    rw [mem_ascending, listed]
    exact exists_congr fun o => and_congr_right fun _ => Option.bind_eq_some_iff

variable {row : VarId → Report.Row} (asked : ∀ v, s.objectsOf? v = some (answers v))
  (rows : ∀ v, answers v ≠ [] → ∃ decl, p.vars[v]? = some decl ∧
    decl.method.index < p.methods.size ∧ Report.row? s v (answers v) = some (decl.method, row v))
include asked rows

/-- The rows are gathered by their methods, and stay in the order of the variables. -/
theorem sections? : Report.sections? s =
    some ((p.methods.ids.filter fun m => Report.shown p answers m ≠ []).map fun m =>
      (m, (Report.shown p answers m).map row)) := by
  let filled := p.vars.ids.filter fun v => answers v ≠ []
  let method (v : VarId) : MethodId := ((p.vars[v]?).map VarDecl.method).getD default
  have own (v : VarId) (hv : answers v ≠ []) : (p.vars[v]?).map VarDecl.method = some (method v) ∧
      (method v).index < p.methods.size ∧
      Report.row? s v (answers v) = some (method v, row v) := by
    obtain ⟨decl, hd, lt, found⟩ := rows v hv
    have same : method v = decl.method := by simp only [method, hd]; rfl
    exact ⟨by rw [hd, same]; rfl, same ▸ lt, same ▸ found⟩
  have all : ∀ v ∈ filled, answers v ≠ [] := fun v mem => of_decide_eq_true (List.mem_filter.1 mem).2
  have found : (filled.map fun v => (v, answers v)).mapM
      (fun entry => Report.row? s entry.1 entry.2) = some (filled.map fun v => (method v, row v)) := by
    rw [mapM_eq_some_iff, List.forall₂_map_left_iff, List.forall₂_map_right_iff, List.forall₂_same]
    exact fun v mem => (own v (all v mem)).2.2
  have same (m : MethodId) : filled.filter (method · = m) = Report.shown p answers m := by
    rw [Report.shown, List.filter_filter]
    refine List.filter_congr fun v _ => ?_
    by_cases hv : answers v = []
    · simp [hv]
    · simp [hv, (own v hv).1]
  have listed : ∀ v ∈ filled, method v ∈ p.methods.ids := fun v mem =>
    Id.mem_firsts.2 (own v (all v mem)).2.1
  have gathered := groups_mergeSort row Id.pairwise_firsts listed
  simp only [same] at gathered
  rw [Report.sections?, hs.pairs_eq asked, Option.bind_eq_bind, Option.bind_some,
    hs.groups_pairs asked (hs.pairs_eq asked)]
  exact (congrArg (Option.bind · _) found).trans (congrArg some gathered)

theorem renders {signature : MethodId → String}
    (signed : ∀ m, m.index < p.methods.size → s.catalog.signature? m = some (signature m))
    (shows : ∀ v, answers v ≠ [] → (row v).Shows s v (answers v)) :
    ∃ text, Report.sets? s = some text ∧ Report.Renders text s answers signature row := by
  let sections := p.methods.ids.filter fun m => Report.shown p answers m ≠ []
  have found : (sections.map fun m => (m, (Report.shown p answers m).map row)).mapM
      (fun entry => Report.sectionText? s entry.1 entry.2) = some (sections.map fun m =>
        signature m ++ ":\n" ++ String.join ((Report.shown p answers m).map fun v => (row v).text)) := by
    rw [mapM_eq_some_iff, List.forall₂_map_left_iff, List.forall₂_map_right_iff, List.forall₂_same]
    intro m mem
    rw [Report.sectionText?, signed m (Id.mem_firsts.1 (List.mem_filter.1 mem).1), List.map_map]
    rfl
  have joined := congrArg (Option.bind · fun texts => some (String.join texts)) found
  refine ⟨_, by rw [Report.sets?, hs.sections? asked rows]; exact joined, ?_⟩
  have program := hs.program
  subst program
  exact
    { owned := fun v filled => by
        obtain ⟨decl, hd, lt, -⟩ := rows v filled
        exact ⟨decl.method, Id.mem_firsts.2 lt, Report.mem_shown.2 ⟨decl, hd, rfl, filled⟩⟩
      signatures := fun m ne => by
        obtain ⟨v, mem⟩ := List.exists_mem_of_ne_nil _ ne
        obtain ⟨decl, hd, rfl, filled⟩ := Report.mem_shown.1 mem
        obtain ⟨decl', hd', lt, -⟩ := rows v filled
        cases hd.symm.trans hd'
        exact signed _ lt
      rows := shows
      text := rfl }

end Grounded

/-! ### Runs -/

/-- Reports agree with answers. Take any program that arises, any selector, function values and taint
tracking on or off, and a run that finishes. Every variable is answered with a strictly ascending list
of objects. The statistics say how many variables of the program have objects in their answers and how
long the answers are together, how many pointers have objects and how large their sets are together,
and how many methods occur among those that are reached, which are at most as many as are reached in
their contexts. The text of the points-to sets has exactly one row for each variable with objects, below
the signature of its method, with the methods and their variables in ascending order, and a row lists
the texts of the objects of its variable, ascending and each once. -/
theorem reports_agree {p : Program} (arises : p.Arises) {c : Configuration}
    (fits : ∀ rules, c.rules = some rules → rules.Fits p.toCatalog) (contexts : ContextTable)
    {fuel : Nat} {r : Run Extensions}
    (ran : analyze fuel (.all c.plugins) {} (.initial p c.selector contexts) = r)
    (finished : r.verdict = .finished) :
    r.solver.program = p ∧ ∃ answers : VarId → List ObjectId,
      (∀ v, r.solver.objectsOf? v = some (answers v) ∧ (answers v).Pairwise (· < ·)) ∧
      (∃ t, Statistics.of? r.solver = some t ∧ t.Counts r.solver answers) ∧
      ∃ signature row text, Report.sets? r.solver = some text ∧
        Report.Renders text r.solver answers signature row := by
  subst ran
  have hs := grounded_of_finished arises.wellFormed fits finished
  have tallied : (analyze fuel (.all c.plugins) {} (.initial p c.selector contexts)).solver.Tallied :=
    maintained_tallied.shows (.all c.public_plugins) (by exact Solver.Tallied.initial)
      (shows_of_finished (.all c.public_plugins) finished)
  generalize (analyze fuel (.all c.plugins) {} (.initial p c.selector contexts)).solver = s
    at hs tallied ⊢
  choose answers answered using hs.objectsOf?
  have asked (v : VarId) := (answered v).1
  have rows (v : VarId) : ∃ row : Report.Row, answers v ≠ [] → row.Shows s v (answers v) ∧
      ∃ decl, p.vars[v]? = some decl ∧ decl.method.index < p.methods.size ∧
        Report.row? s v (answers v) = some (decl.method, row) := by
    by_cases filled : answers v = []
    · exact ⟨⟨"", []⟩, absurd filled⟩
    · obtain ⟨decl, row, hd, lt, found, shows⟩ := hs.row? filled fun o => ((answered v).2.2 o).1
      exact ⟨row, fun _ => ⟨shows, decl, hd, lt, found⟩⟩
  choose row rows using rows
  have signed (m : MethodId) : ∃ signature, m.index < p.methods.size →
      s.catalog.signature? m = some signature := by
    by_cases known : m.index < p.methods.size
    · obtain ⟨text, signature⟩ := hs.wellFormed.complete.signature? known
      exact ⟨text, fun _ => by rw [Solver.catalog, hs.program]; exact signature⟩
    · exact ⟨"", fun lt => absurd lt known⟩
  choose signature signed using signed
  refine ⟨hs.program, answers, fun v => ⟨asked v, (answered v).2.1⟩, hs.counts asked tallied,
    signature, row, ?_⟩
  exact hs.renders asked (fun v filled => (rows v filled).2) signed fun v filled => (rows v filled).1

open Examples in
/-- A method that is reached in two contexts counts once, and so does a variable that has the same objects
in both of them. -/
theorem reports_agree_supply : supply.assemble.result = .ok supplyProgram ∧
    (suppliedRun 30).verdict = .finished ∧
    Statistics.of? (suppliedRun 30).solver = some ⟨3, 4, 3, 3, 3, ⟨6, 8⟩, ⟨5, 8⟩⟩ ∧
    ∃ answers : VarId → List ObjectId, answers ⟨0⟩ = [] ∧ answers ⟨1⟩ = [⟨1⟩, ⟨2⟩] ∧
      (∃ t, Statistics.of? (suppliedRun 30).solver = some t ∧
        t.Counts (suppliedRun 30).solver answers) ∧
      ∃ signature row text, Report.sets? (suppliedRun 30).solver = some text ∧
        Report.Renders text (suppliedRun 30).solver answers signature row := by
  have accepted : supply.assemble.result = .ok supplyProgram := eq_ok_of_isOk (by decide +kernel)
  have fits : ∀ rules, supplied.rules = some rules → rules.Fits supplyProgram.toCatalog := by
    rintro _ ⟨⟩
    exact ⟨by decide +kernel, by simp⟩
  obtain ⟨finished, statistics, none, two⟩ : (suppliedRun 30).verdict = .finished ∧
      Statistics.of? (suppliedRun 30).solver = some ⟨3, 4, 3, 3, 3, ⟨6, 8⟩, ⟨5, 8⟩⟩ ∧
      (suppliedRun 30).solver.objectsOf? ⟨0⟩ = some [] ∧
      (suppliedRun 30).solver.objectsOf? ⟨1⟩ = some [⟨1⟩, ⟨2⟩] := by decide +kernel
  obtain ⟨-, answers, asked, counts, renders⟩ :=
    reports_agree (.loaded accepted) fits leftBehind rfl finished
  refine ⟨accepted, finished, statistics, answers, ?_, ?_, counts, renders⟩
  · exact Option.some.inj ((asked ⟨0⟩).1.symm.trans none)
  · exact Option.some.inj ((asked ⟨1⟩).1.symm.trans two)

end PointsTo
