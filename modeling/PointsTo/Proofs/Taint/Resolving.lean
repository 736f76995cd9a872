import PointsTo.Proofs.Answers
import PointsTo.Proofs.Grouping
import PointsTo.Proofs.Signatures
import PointsTo.Taint.Rules

/-!
Rules are resolved all or nothing. Either every rule fits the program, and each is resolved in its
place, or the first rule that does not fit is named. What is resolved is grouped by methods, no rule
being lost, repeated or moved past another one of its method.
-/
namespace PointsTo

namespace Taint

variable {p : Program} {b : Builder} {m : MethodId} {d : MethodDecl} {x : Position}

/-! ### Rules that fit -/

/-- The calls of a method have a variable at a position. -/
inductive Offers (d : MethodDecl) : Position → Prop
  | base (dynamic : d.isStatic = false) : Offers d .base
  | result {t : TypeId} (yields : d.ref.sub.result = some t) : Offers d .result
  | arg {i : Nat} (lt : i < d.ref.sub.params.length) : Offers d (.arg i)

theorem hasPosition_iff : Rules.hasPosition d x = true ↔ Offers d x := by
  cases x with
  | base =>
    rw [Rules.hasPosition, Bool.not_eq_true']
    exact ⟨.base, fun | .base h => h⟩
  | result =>
    rw [Rules.hasPosition, Option.isSome_iff_exists]
    exact ⟨fun ⟨_, h⟩ => .result h, fun | .result h => ⟨_, h⟩⟩
  | arg i =>
    rw [Rules.hasPosition, decide_eq_true_iff]
    exact ⟨.arg, fun | .arg h => h⟩

/-- A rule of whatever kind, as it is written. -/
inductive WrittenRule
  | source (r : SourceRule String String)
  | sink (r : SinkRule String)
  | transfer (r : TransferRule String String)

namespace WrittenRule

/-- The signature of the method that a rule is about. -/
def method : WrittenRule → String
  | source r => r.method
  | sink r => r.method
  | transfer r => r.method

/-- The positions that calls of the method must have. -/
def positions : WrittenRule → List Position
  | source _ => []
  | sink r => [.arg r.index]
  | transfer r => [r.source, r.target]

/-- The name of the type that tainted values have or take on. -/
def type? : WrittenRule → Option String
  | source r => some r.type
  | sink _ => none
  | transfer r => some r.type

/-- A rule names a declared method, whose calls have its positions, and a declared type, if any. -/
structure FitsAt (p : Program) (rule : WrittenRule) (m : MethodId) (d : MethodDecl) : Prop where
  declared : p.methods[m]? = some d
  signed : p.signature? m = some rule.method
  positions : ∀ x ∈ rule.positions, Offers d x
  type : ∀ name, rule.type? = some name → ∃ t, p.typeName? t = some name

def Fits (p : Program) (rule : WrittenRule) : Prop := ∃ m d, rule.FitsAt p m d

/-- What a rule lacks, with the message that says so. -/
inductive Lacks (p : Program) (rule : WrittenRule) : String → Prop
  | method (undeclared : ∀ m, p.signature? m ≠ some rule.method) : Lacks p rule "no such method"
  | position {m : MethodId} {d : MethodDecl} {x : Position} (declared : p.methods[m]? = some d)
    (signed : p.signature? m = some rule.method) (mem : x ∈ rule.positions) (none : ¬ Offers d x) :
    Lacks p rule s!"position `{x.name}` does not exist"
  | type {name : String} (named : rule.type? = some name)
    (undeclared : ∀ t, p.typeName? t ≠ some name) : Lacks p rule s!"no such type `{name}`"

/-- A rule that lacks something does not fit. -/
theorem Lacks.not_fits (built : b.build = .ok p) {rule : WrittenRule} {message : String}
    (lacks : rule.Lacks p message) : ¬ rule.Fits p := by
  rintro ⟨m, d, fits⟩
  cases lacks with
  | method undeclared => exact undeclared m fits.signed
  | position declared signed mem none =>
    rw [← Program.method?_eq_some_iff built] at signed
    cases signed.symm.trans ((Program.method?_eq_some_iff built).2 fits.signed)
    cases declared.symm.trans fits.declared
    exact none (fits.positions _ mem)
  | type named undeclared =>
    obtain ⟨t, declared⟩ := fits.type _ named
    exact undeclared t declared

end WrittenRule

/-! ### Looking things up -/

theorem method_cases (built : b.build = .ok p) (text : String) :
    (∃ m d, Rules.method p text = .ok m ∧ p.methods[m]? = some d ∧ p.signature? m = some text) ∨
      Rules.method p text = .error (.config text "no such method") ∧
        ∀ m, p.signature? m ≠ some text := by
  unfold Rules.method
  split
  next m found =>
    have signed := (Program.method?_eq_some_iff built).1 found
    obtain ⟨d, declared, -⟩ := Option.bind_eq_some_iff.1 signed
    exact .inl ⟨m, d, rfl, declared, signed⟩
  next none =>
    refine .inr ⟨rfl, fun m signed => ?_⟩
    cases none.symm.trans ((Program.method?_eq_some_iff built).2 signed)

theorem type_cases (p : Program) (key name : String) :
    (∃ t, Rules.type p key name = .ok t ∧ p.typeName? t = some name) ∨
      Rules.type p key name = .error (.config key s!"no such type `{name}`") ∧
        ∀ t, p.typeName? t ≠ some name := by
  unfold Rules.type
  split
  next t found => exact .inl ⟨t, rfl, Catalog.type?_eq_some_iff.1 found⟩
  next none =>
    refine .inr ⟨rfl, fun t named => ?_⟩
    cases none.symm.trans (Catalog.type?_eq_some_iff.2 named)

theorem checkPosition_cases (key : String) (declared : p.methods[m]? = some d) (x : Position) :
    Rules.checkPosition p key m x = .ok () ∧ Offers d x ∨
      Rules.checkPosition p key m x = .error (.config key s!"position `{x.name}` does not exist") ∧
        ¬ Offers d x := by
  unfold Rules.checkPosition
  rw [declared, Option.any_some, ← hasPosition_iff]
  split
  next offers => exact .inl ⟨rfl, offers⟩
  next none => exact .inr ⟨rfl, none⟩

/-! ### Resolving rules -/

/-- What a source is resolved to. -/
structure SourceRule.Denotes (p : Program) (w : SourceRule String String)
    (r : SourceRule MethodId TypeId) : Prop where
  method : p.signature? r.method = some w.method
  type : p.typeName? r.type = some w.type

/-- What a sink is resolved to. -/
structure SinkRule.Denotes (p : Program) (w : SinkRule String) (r : SinkRule MethodId) : Prop where
  method : p.signature? r.method = some w.method
  index : r.index = w.index

/-- What a transfer is resolved to. -/
structure TransferRule.Denotes (p : Program) (w : TransferRule String String)
    (r : TransferRule MethodId TypeId) : Prop where
  method : p.signature? r.method = some w.method
  source : r.source = w.source
  target : r.target = w.target
  type : p.typeName? r.type = some w.type

/-- A rule fits and is resolved, or it is refused because of what it lacks. -/
def Decides {ω ρ : Type} (p : Program) (rule : ω → WrittenRule) (Denotes : ω → ρ → Prop)
    (resolve : ω → Except Fault ρ) : Prop :=
  ∀ w, (∃ r, resolve w = .ok r ∧ (rule w).Fits p ∧ Denotes w r) ∨
    ∃ message, resolve w = .error (.config (rule w).method message) ∧ (rule w).Lacks p message

theorem decides_source (built : b.build = .ok p) :
    Decides p .source (SourceRule.Denotes p) (Rules.source p) := by
  intro w
  unfold Rules.source
  obtain ⟨m, d, found, declared, signed⟩ | ⟨missing, undeclared⟩ := method_cases built w.method
  · rw [found]
    obtain ⟨t, found, named⟩ | ⟨missing, undeclared⟩ := type_cases p w.method w.type
    · rw [found]
      refine .inl ⟨⟨m, t⟩, rfl, ⟨m, d, declared, signed, ?_, ?_⟩, signed, named⟩
      · exact fun x mem => absurd mem List.not_mem_nil
      · rintro name ⟨⟩
        exact ⟨t, named⟩
    · rw [missing]
      exact .inr ⟨_, rfl, .type rfl undeclared⟩
  · rw [missing]
    exact .inr ⟨_, rfl, .method undeclared⟩

theorem decides_sink (built : b.build = .ok p) :
    Decides p .sink (SinkRule.Denotes p) (Rules.sink p) := by
  intro w
  unfold Rules.sink
  obtain ⟨m, d, found, declared, signed⟩ | ⟨missing, undeclared⟩ := method_cases built w.method
  · rw [found]
    obtain ⟨checked, offers⟩ | ⟨refused, none⟩ :=
      checkPosition_cases w.method declared (.arg w.index)
    · refine .inl ⟨⟨m, w.index⟩, ?_, ⟨m, d, declared, signed, ?_, ?_⟩, signed, rfl⟩
      · simp [bind, Except.bind, checked, pure, Except.pure]
      · exact List.forall_mem_singleton.2 offers
      · rintro name ⟨⟩
    · refine .inr ⟨_, ?_, .position declared signed (List.mem_singleton_self _) none⟩
      simp [bind, Except.bind, refused, WrittenRule.method]
  · rw [missing]
    exact .inr ⟨_, rfl, .method undeclared⟩

theorem decides_transfer (built : b.build = .ok p) :
    Decides p .transfer (TransferRule.Denotes p) (Rules.transfer p) := by
  intro w
  unfold Rules.transfer
  obtain ⟨m, d, found, declared, signed⟩ | ⟨missing, undeclared⟩ := method_cases built w.method
  · rw [found]
    obtain ⟨hfrom, source⟩ | ⟨refused, none⟩ := checkPosition_cases w.method declared w.source
    · obtain ⟨hto, target⟩ | ⟨refused, none⟩ := checkPosition_cases w.method declared w.target
      · obtain ⟨t, found, named⟩ | ⟨missing, undeclared⟩ := type_cases p w.method w.type
        · refine .inl ⟨⟨m, w.source, w.target, t⟩, ?_, ⟨m, d, declared, signed, ?_, ?_⟩,
            signed, rfl, rfl, named⟩
          · simp [bind, Except.bind, hfrom, hto, found, pure, Except.pure]
          · exact List.forall_mem_cons.2 ⟨source, List.forall_mem_singleton.2 target⟩
          · rintro name ⟨⟩
            exact ⟨t, named⟩
        · refine .inr ⟨_, ?_, .type rfl undeclared⟩
          simp [bind, Except.bind, hfrom, hto, missing, WrittenRule.method]
      · refine .inr ⟨_, ?_, .position declared signed (x := w.target) (by simp [WrittenRule.positions])
          none⟩
        simp [bind, Except.bind, hfrom, refused, WrittenRule.method]
    · refine .inr ⟨_, ?_, .position declared signed (x := w.source) (by simp [WrittenRule.positions])
        none⟩
      simp [bind, Except.bind, refused, WrittenRule.method]
  · rw [missing]
    exact .inr ⟨_, rfl, .method undeclared⟩

/-- A list of rules is resolved entry by entry, up to the first rule that does not fit. -/
theorem Decides.mapM {ω ρ : Type} {rule : ω → WrittenRule} {Denotes : ω → ρ → Prop}
    {resolve : ω → Except Fault ρ} (h : Decides p rule Denotes resolve) (ws : List ω) :
    (∃ rs, ws.mapM resolve = .ok rs ∧ (∀ w ∈ ws, (rule w).Fits p) ∧ List.Forall₂ Denotes ws rs) ∨
      ∃ before w after message, ws = before ++ w :: after ∧ (∀ w ∈ before, (rule w).Fits p) ∧
        (rule w).Lacks p message ∧ ws.mapM resolve = .error (.config (rule w).method message) := by
  induction ws with
  | nil => exact .inl ⟨[], rfl, by simp, .nil⟩
  | cons w ws ih =>
    rw [List.mapM_cons]
    obtain ⟨r, hr, fits, denotes⟩ | ⟨message, refused, lacks⟩ := h w
    · rw [hr]
      obtain ⟨rs, hrs, all, related⟩ | ⟨before, bad, after, message, rfl, all, lacks, refused⟩ := ih
      · rw [hrs]
        exact .inl ⟨r :: rs, rfl, List.forall_mem_cons.2 ⟨fits, all⟩, .cons denotes related⟩
      · rw [refused]
        exact .inr ⟨w :: before, bad, after, message, rfl, List.forall_mem_cons.2 ⟨fits, all⟩, lacks,
          rfl⟩
    · rw [refused]
      exact .inr ⟨[], w, ws, message, rfl, by simp, lacks, rfl⟩

/-- The rules of a table in the order in which they are resolved. -/
def WrittenRules.inOrder (w : WrittenRules) : List WrittenRule :=
  w.sources.map .source ++ w.sinks.map .sink ++ w.transfers.map .transfer

/-! ### Grouping rules -/

/-- Groups hold some pairs, each once, under their first components; every group has a pair, and its
pairs stand in the order that they had. -/
structure Regroups {κ β : Type} (pairs : List (κ × β)) (groups : List (κ × List β)) : Prop where
  keys : (groups.map Prod.fst).Nodup
  filled : ∀ g ∈ groups, g.2 ≠ []
  perm : (groups.flatMap fun g => g.2.map (g.1, ·)).Perm pairs
  order : ∀ g ∈ groups, (g.2.map (g.1, ·)).Sublist pairs

/-- Picking by one key after the other picks every pair with one of the keys. -/
theorem perm_flatMap_filter {κ β : Type} [DecidableEq κ] (pairs : List (κ × β)) {keys : List κ}
    (apart : keys.Nodup) : (keys.flatMap fun k => pairs.filter fun pair => pair.1 = k).Perm
      (pairs.filter fun pair => pair.1 ∈ keys) := by
  induction keys with
  | nil => simp
  | cons k keys ih =>
    obtain ⟨fresh, apart⟩ := List.nodup_cons.1 apart
    have first : pairs.filter (fun pair => pair.1 = k) =
        (pairs.filter fun pair => pair.1 ∈ k :: keys).filter fun pair => pair.1 = k := by
      rw [List.filter_filter]
      refine List.filter_congr fun pair _ => ?_
      by_cases same : pair.1 = k
      · simp [same]
      · simp [same]
    have others : pairs.filter (fun pair => pair.1 ∈ keys) =
        (pairs.filter fun pair => pair.1 ∈ k :: keys).filter fun pair => !decide (pair.1 = k) := by
      rw [List.filter_filter]
      refine List.filter_congr fun pair _ => ?_
      by_cases same : pair.1 = k
      · simp [same, fresh]
      · simp [same]
    rw [List.flatMap_cons]
    refine ((ih apart).append_left _).trans ?_
    rw [first, others]
    exact List.filter_append_perm _ _

/-- What is picked for each method that occurs regroups everything. -/
theorem regroups_distinctMethods {ρ β : Type} (rules : List ρ) (method : ρ → MethodId)
    (value : ρ → β) :
    Regroups (rules.map fun r => (method r, value r))
      ((RuleTable.distinctMethods (rules.map method)).map fun m =>
        (m, (rules.filter fun r => method r == m).map value)) := by
  let pairs := rules.map fun r => (method r, value r)
  have picked (m : MethodId) : ((rules.filter fun r => method r == m).map value).map (m, ·) =
      pairs.filter fun pair => pair.1 = m := by
    rw [List.filter_map, List.map_map]
    refine List.map_congr_left fun r mem => ?_
    rw [← eq_of_beq (List.mem_filter.1 mem).2]
    rfl
  have apart : (RuleTable.distinctMethods (rules.map method)).Nodup :=
    Id.nodup_of_pairwise (pairwise_ascending _)
  have occurs {m : MethodId} : m ∈ RuleTable.distinctMethods (rules.map method) ↔
      ∃ r ∈ rules, method r = m := mem_ascending.trans List.mem_map
  constructor
  · rw [List.map_map]
    exact (List.map_id _).symm ▸ apart
  · intro g mem
    obtain ⟨m, hm, rfl⟩ := List.mem_map.1 mem
    obtain ⟨r, hr, same⟩ := occurs.1 hm
    exact List.ne_nil_of_mem (List.mem_map.2 ⟨r, List.mem_filter.2 ⟨hr, beq_iff_eq.2 same⟩, rfl⟩)
  · rw [List.flatMap_map]
    simp only [picked]
    refine (perm_flatMap_filter pairs apart).trans (.of_eq ?_)
    exact List.filter_eq_self.2 (List.forall_mem_map.2 fun r hr => decide_eq_true (occurs.2 ⟨r, hr, rfl⟩))
  · intro g mem
    obtain ⟨m, -, rfl⟩ := List.mem_map.1 mem
    rw [picked]
    exact List.filter_sublist

theorem regroups_sources (r : Rules) :
    Regroups (r.sources.map fun s => (s.method, s.type)) r.sourcesByMethod :=
  regroups_distinctMethods r.sources SourceRule.method SourceRule.type

theorem regroups_transfers (r : Rules) :
    Regroups (r.transfers.map fun t => (t.method, t)) r.transfersByMethod := by
  have regroups := regroups_distinctMethods r.transfers TransferRule.method id
  simp only [List.map_id] at regroups
  exact regroups

/-! ### Resolving tables -/

/-- Each rule of a table is resolved in its place, and all are found again in the groups. -/
structure Rules.Resolves (p : Program) (w : WrittenRules) (r : Rules) : Prop where
  sources : List.Forall₂ (SourceRule.Denotes p) w.sources r.sources
  sinks : List.Forall₂ (SinkRule.Denotes p) w.sinks r.sinks
  transfers : List.Forall₂ (TransferRule.Denotes p) w.transfers r.transfers
  sourcesByMethod : Regroups (r.sources.map fun s => (s.method, s.type)) r.sourcesByMethod
  transfersByMethod : Regroups (r.transfers.map fun t => (t.method, t)) r.transfersByMethod

theorem resolve_cases (built : b.build = .ok p) (w : WrittenRules) :
    (∃ r, Rules.resolve p w = .ok r ∧ (∀ rule ∈ w.inOrder, rule.Fits p) ∧ Rules.Resolves p w r) ∨
      ∃ before rule after message, w.inOrder = before ++ rule :: after ∧
        (∀ x ∈ before, x.Fits p) ∧ rule.Lacks p message ∧
          Rules.resolve p w = .error (.config rule.method message) := by
  have all {ω : Type} {ws : List ω} {rule : ω → WrittenRule} (h : ∀ x ∈ ws, (rule x).Fits p) :
      ∀ x ∈ ws.map rule, x.Fits p := List.forall_mem_map.2 h
  unfold Rules.resolve WrittenRules.inOrder
  obtain ⟨sources, hs, fits, denotes⟩ | ⟨before, r, after, message, same, fits, lacks, refused⟩ :=
    (decides_source built).mapM w.sources
  · rw [hs]
    obtain ⟨sinks, ht, fits', denotes'⟩ | ⟨before, r, after, message, same, fits', lacks, refused⟩ :=
      (decides_sink built).mapM w.sinks
    · rw [ht]
      obtain ⟨transfers, hu, fits'', denotes''⟩ |
          ⟨before, r, after, message, same, fits'', lacks, refused⟩ :=
        (decides_transfer built).mapM w.transfers
      · rw [hu]
        refine .inl ⟨⟨sources, sinks, transfers⟩, rfl, ?_, denotes, denotes', denotes'',
          regroups_sources _, regroups_transfers _⟩
        exact List.forall_mem_append.2
          ⟨List.forall_mem_append.2 ⟨all fits, all fits'⟩, all fits''⟩
      · rw [refused, same]
        refine .inr ⟨_, .transfer r, after.map .transfer, message, ?_,
          List.forall_mem_append.2 ⟨List.forall_mem_append.2 ⟨all fits, all fits'⟩, all fits''⟩,
          lacks, rfl⟩
        simp
    · rw [refused, same]
      refine .inr ⟨_, .sink r, after.map .sink ++ w.transfers.map .transfer, message, ?_,
        List.forall_mem_append.2 ⟨all fits, all fits'⟩, lacks, rfl⟩
      simp
  · rw [refused, same]
    refine .inr ⟨_, .source r, after.map .source ++ w.sinks.map .sink ++ w.transfers.map .transfer,
      message, ?_, all fits, lacks, rfl⟩
    simp

/-- The first element without a property is found in one way only. -/
theorem first_unique {α : Type} {P : α → Prop} {before before' after after' : List α} {a a' : α}
    (same : before ++ a :: after = before' ++ a' :: after') (h : ∀ x ∈ before, P x) (ha : ¬ P a)
    (h' : ∀ x ∈ before', P x) (ha' : ¬ P a') : a = a' := by
  classical
  have first {before after : List α} {a : α} (h : ∀ x ∈ before, P x) (ha : ¬ P a) :
      (before ++ a :: after).find? (fun x => ¬ P x) = some a := by
    rw [List.find?_append, List.find?_eq_none.2 fun x mem => by simpa using h x mem, Option.none_or]
    exact List.find?_cons_of_pos (decide_eq_true ha)
  exact Option.some.inj ((first h ha).symm.trans (same ▸ first h' ha'))

/-- Rules are resolved exactly when all of them fit the program, and then each is resolved in its
place. Otherwise the method of the first rule that does not fit is named, with what that rule lacks. -/
theorem resolved_all_or_nothing (built : b.build = .ok p) (w : WrittenRules) :
    ((∃ r, Rules.resolve p w = .ok r) ↔ ∀ rule ∈ w.inOrder, rule.Fits p) ∧
    (∀ r, Rules.resolve p w = .ok r → Rules.Resolves p w r) ∧
    ∀ before rule after, w.inOrder = before ++ rule :: after → (∀ x ∈ before, x.Fits p) →
      ¬ rule.Fits p → ∃ message, Rules.resolve p w = .error (.config rule.method message) ∧
        rule.Lacks p message := by
  obtain ⟨r, resolved, fits, resolves⟩ | ⟨before, bad, after, message, split, fits, lacks, refused⟩ :=
    resolve_cases built w
  · refine ⟨⟨fun _ => fits, fun _ => ⟨r, resolved⟩⟩, fun r' resolved' => ?_, ?_⟩
    · cases resolved.symm.trans resolved'
      exact resolves
    · intro before rule after split _ lacks
      exact absurd (fits rule (by simp [split])) lacks
  · have unfit := lacks.not_fits built
    have mem : bad ∈ w.inOrder := by simp [split]
    refine ⟨⟨fun ⟨r, resolved⟩ => ?_, fun all => absurd (all bad mem) unfit⟩, fun r resolved => ?_, ?_⟩
    · cases refused.symm.trans resolved
    · cases refused.symm.trans resolved
    · intro before' rule after' split' fits' unfit'
      cases first_unique (split.symm.trans split') fits unfit fits' unfit'
      exact ⟨message, refused, lacks⟩

namespace Examples

def drawn : Rules :=
  ⟨[⟨⟨1⟩, ⟨1⟩⟩, ⟨⟨0⟩, ⟨0⟩⟩, ⟨⟨1⟩, ⟨0⟩⟩], [⟨⟨0⟩, 0⟩], [⟨⟨1⟩, .base, .result, ⟨1⟩⟩]⟩

/-- The rules of `drawn` as they are written, followed by some transfers. -/
def written (transfers : List (TransferRule String String)) : WrittenRules :=
  ⟨[⟨"<Circle: Circle draw(Circle)>", "Circle"⟩, ⟨"<Shape: Circle draw(Circle)>", "Shape"⟩,
      ⟨"<Circle: Circle draw(Circle)>", "Shape"⟩],
    [⟨"<Shape: Circle draw(Circle)>", 0⟩],
    ⟨"<Circle: Circle draw(Circle)>", .base, .result, "Circle"⟩ :: transfers⟩

/-- A transfer from the receiver of a static method. -/
def receiverless : TransferRule String String := ⟨"<Circle: void main()>", .base, .arg 0, "Circle"⟩

end Examples

open PointsTo.Examples Examples in
/-- Three sources are gathered under two methods, and a static method has no receiver. -/
theorem resolved_all_or_nothing_drawing :
    (Builder.ofDeclarations drawing).build = .ok (.ofDeclarations drawing) ∧
    Rules.Resolves (.ofDeclarations drawing) (written []) drawn ∧
    drawn.sourcesByMethod = [(⟨0⟩, [⟨0⟩]), (⟨1⟩, [⟨1⟩, ⟨0⟩])] ∧
    Rules.resolve (.ofDeclarations drawing) (written [receiverless]) =
      .error (.config "<Circle: void main()>" "position `base` does not exist") ∧
    ¬ ∀ rule ∈ (written [receiverless]).inOrder, rule.Fits (.ofDeclarations drawing) := by
  have built : (Builder.ofDeclarations drawing).build = .ok (.ofDeclarations drawing) :=
    Program.build_ofDeclarations (by decide +kernel)
  have resolved : Rules.resolve (.ofDeclarations drawing) (written []) = .ok drawn := by
    decide +kernel
  have refused : Rules.resolve (.ofDeclarations drawing) (written [receiverless]) =
      .error (.config "<Circle: void main()>" "position `base` does not exist") := by decide +kernel
  refine ⟨built, (resolved_all_or_nothing built _).2.1 _ resolved, by decide +kernel, refused,
    fun all => ?_⟩
  obtain ⟨r, accepted⟩ := (resolved_all_or_nothing built _).1.2 all
  cases refused.symm.trans accepted

end Taint

end PointsTo
