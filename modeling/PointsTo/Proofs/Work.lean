import PointsTo.Proofs.Extensions

/-!
What pieces of work are made of: between them, the solver extends its state and enters no method but
the one that it has just reached. What plugins get to know of them comes in order.
-/
namespace PointsTo

open Solver

/-- Whether an event tells that a method has been reached. -/
def Event.isEntrance : Event → Bool
  | .method _ | .contextMethod _ => true
  | .call _ | .unresolved .. | .objects .. => false

/-- Whether an event tells of something new, and does not ask for help with a call. -/
def Event.isTiding : Event → Bool
  | .method _ | .contextMethod _ | .call _ | .objects .. => true
  | .unresolved .. => false

/-- Whether an event asks for help with a call that is linked at run time. -/
def Event.isPetition : Event → Bool
  | .unresolved none _ _ => true
  | .method _ | .contextMethod _ | .call _ | .unresolved (some _) .. | .objects .. => false

/-- Whether a call is linked at run time by a mechanism that plugins have to take care of. -/
def CallSite.isUnsupported (decl : CallSite) : Bool :=
  match decl.kind with
  | .dynamic call => call.bootstrap != .stringConcat
  | .static | .special | .virtual | .interface => false

/-- What plugins are asked about a statement of a method in a context. -/
def Program.petitionsOf (p : Program) (c : ContextId) : Statement → List Event
  | .invoke site =>
    if (p.callSites[site]?).any CallSite.isUnsupported then [.unresolved none c site] else []
  | _ => []

/-- What plugins are asked about a method in a context. -/
def Program.petitions (p : Program) (m : InContext .method) : List Event :=
  match p.methods[m.entity]? with
  | some d => d.body.toList.flatMap (p.petitionsOf m.context)
  | none => []

/-- The objects that a program makes up by itself: those that it allocates, and concatenated
strings. -/
def AbstractObject.IsCore (a : AbstractObject) : Prop :=
  match a.origin with
  | .allocation .. => True
  | .mock description _ => description = Solve.stringConcatenation

namespace Solver

/-- The reached methods that are still to be handed to the plugins, the oldest first. -/
def entrances (s : Solver) : List Event := s.events.toList.filter Event.isEntrance

/-- The news that are still to be handed to the plugins, the oldest first. -/
def tidings (s : Solver) : List Event := s.events.toList.filter Event.isTiding

/-- The calls that plugins are still to be asked about, the oldest first. -/
def petitions (s : Solver) : List Event := s.events.toList.filter Event.isPetition

theorem filter_announce {s : Solver} {e : Event} {p : Event → Bool} :
    (s.announce e).events.toList.filter p =
      s.events.toList.filter p ++ if p e then [e] else [] := by
  change (s.events.push e).toList.filter _ = _
  rw [Queue.toList_push, List.filter_append]
  cases h : p e <;> simp [h]

theorem entrances_announce {s : Solver} {e : Event} :
    (s.announce e).entrances = s.entrances ++ if e.isEntrance then [e] else [] := filter_announce

theorem tidings_announce {s : Solver} {e : Event} :
    (s.announce e).tidings = s.tidings ++ if e.isTiding then [e] else [] := filter_announce

theorem petitions_announce {s : Solver} {e : Event} :
    (s.announce e).petitions = s.petitions ++ if e.isPetition then [e] else [] := filter_announce

theorem entrances_eq (s : Solver) : s.entrances = s.tidings.filter Event.isEntrance := by
  rw [entrances, tidings, List.filter_filter]
  exact List.filter_congr fun e _ => by cases e <;> rfl

/-- A state grows between two pieces of work, and no method is entered. -/
structure Contributes (s t : Solver) : Prop extends Extends s t where
  reachedMethods : t.reachedMethods = s.reachedMethods
  entrances : t.entrances = s.entrances

/-- A state grows between two pieces of work, by nothing that plugins are told, and they are asked
about some calls. -/
structure Asks (questions : List Event) (s t : Solver) : Prop extends Extends s t where
  reachedMethods : t.reachedMethods = s.reachedMethods
  tidings : t.tidings = s.tidings
  petitions : t.petitions = s.petitions ++ questions
  makes : s.Makes AbstractObject.IsCore t

theorem Asks.trans {l l' : List Event} {s t u : Solver} (st : Asks l s t) (tu : Asks l' t u) :
    Asks (l ++ l') s u where
  toExtends := st.toExtends.trans tu.toExtends
  reachedMethods := tu.reachedMethods.trans st.reachedMethods
  tidings := tu.tidings.trans st.tidings
  petitions := by rw [tu.petitions, st.petitions, List.append_assoc]
  makes := trans_of (Makes AbstractObject.IsCore) st.makes tu.makes

/-- A state grows between two pieces of work, by nothing that plugins get to know. -/
abbrev Works : Solver → Solver → Prop := Asks []

theorem Asks.contributes {l : List Event} {s t : Solver} (h : Asks l s t) : s.Contributes t :=
  ⟨h.toExtends, h.reachedMethods, by rw [entrances_eq, h.tidings, entrances_eq]⟩

/-- How plugins are told that a method is reached in a context, in a state that has not met the
method yet, or has met it in another context. -/
def entering (s : Solver) (cm : ContextMethodId) (m : MethodId) : List Event :=
  (if m ∈ s.reachedMethods then [] else [.method m]) ++ [.contextMethod cm]

/-- A method is entered in a context, and announced, at first the method by itself unless it has been
entered before. -/
structure Enters (cm : ContextMethodId) (m : MethodId) (s t : Solver) : Prop where
  reachedMethods : ∀ x, x ∈ t.reachedMethods ↔ x ∈ s.reachedMethods ∨ x = m
  entrances : t.entrances = s.entrances ++
    ((if m ∈ s.reachedMethods then [] else [.method m]) ++ [.contextMethod cm])

theorem Enters.contributes {cm : ContextMethodId} {m : MethodId} {s t u : Solver}
    (st : Enters cm m s t) (tu : t.Contributes u) : Enters cm m s u where
  reachedMethods x := by rw [tu.reachedMethods, st.reachedMethods]
  entrances := tu.entrances.trans st.entrances

/-- A method is entered in a context, and plugins are told nothing else. -/
structure Enrols (cm : ContextMethodId) (m : MethodId) (s t : Solver) : Prop where
  reachedMethods : ∀ x, x ∈ t.reachedMethods ↔ x ∈ s.reachedMethods ∨ x = m
  tidings : t.tidings = s.tidings ++ s.entering cm m
  petitions : ∀ c, s.elements.methods.get? cm = some ⟨c, m⟩ →
    t.petitions = s.petitions ++ s.program.petitions ⟨c, m⟩
  makes : s.Makes AbstractObject.IsCore t

theorem Enrols.enters {cm : ContextMethodId} {m : MethodId} {s t : Solver} (h : Enrols cm m s t) :
    Enters cm m s t where
  reachedMethods := h.reachedMethods
  entrances := by
    rw [entrances_eq, h.tidings, List.filter_append, ← entrances_eq, entering]
    split <;> rfl

theorem Enrols.of_withCalls {cm : ContextMethodId} {m : MethodId} {s t : Solver} {calls : CallGraph}
    (st : Enrols cm m { s with calls } t) : Enrols cm m s t :=
  ⟨st.reachedMethods, st.tidings, st.petitions, st.makes⟩

/-- Entry points change nothing about the methods that have been reached. -/
theorem Entered.contributes {s t : Solver} (h : Entered s t) : s.Contributes t :=
  ⟨h.extends, h.silent.reachedMethods, by rw [Solver.entrances, h.silent.events]; rfl⟩

theorem EnteredBy.works {s t : Solver} (h : EnteredBy AbstractObject.IsCore s t) : s.Works t :=
  ⟨h.entered.extends, h.entered.silent.reachedMethods,
    by rw [Solver.tidings, h.entered.silent.events]; rfl,
    by rw [Solver.petitions, h.entered.silent.events, List.append_nil]; rfl, h.makes⟩

theorem Rewires.works {s t : Solver} (h : Rewires s t) (grown : s.Extends t) : s.Works t :=
  ⟨grown, h.reachedMethods, by rw [Solver.tidings, h.events]; rfl,
    by rw [Solver.petitions, h.events, List.append_nil]; rfl,
    makes_of_same (congrArg Elements.heap h.elements)⟩

end Solver

instance : IsPreorder Solver Works where
  refl s := ⟨.refl s, rfl, rfl, (List.append_nil _).symm, refl_of (Makes AbstractObject.IsCore) s⟩
  trans _ _ _ := Asks.trans

instance : IsPreorder Solver Contributes where
  refl s := ⟨.refl s, rfl, rfl⟩
  trans _ _ _ st tu := ⟨st.toExtends.trans tu.toExtends, tu.reachedMethods.trans st.reachedMethods,
    tu.entrances.trans st.entrances⟩

namespace Solve

/-! ### What the solver does between two pieces of work -/

theorem works_of_entered {α : Type} {f : Solve α} (h : Relates (EnteredBy AbstractObject.IsCore) f) :
    Relates Works f := h.mono fun _ _ => EnteredBy.works

theorem contributes_announce {s : Solver} {event : Event} (plain : event.isEntrance = false) :
    s.Contributes (s.announce event) :=
  ⟨extends_announce, rfl, by
    rw [entrances_announce, plain, if_neg Bool.false_ne_true, List.append_nil]⟩

theorem works_announceOf (receiver : ContextObjectId) (c : ContextId) (site : CallSiteId) :
    Relates Works (modify (·.announce (.unresolved (some receiver) c site)) : Solve PUnit) :=
  .modify fun _ => ⟨extends_announce, rfl, by
    rw [tidings_announce]
    exact List.append_nil _, petitions_announce, makes_of_same rfl⟩

theorem works_warnOf (text : String) : Relates Works (modify (·.warn text) : Solve PUnit) :=
  works_of_entered (entered_warn text)

theorem works_processNamedCall (c : ContextId) (site : CallSiteId) (target : MethodRef)
    (kind : CallEdgeKind) : Relates Works (processNamedCall c site target kind) := by
  refine .bind .get fun s => ?_
  split
  · refine works_of_entered (.bind (entered_internSite c site) fun cs => ?_)
    refine .bind (entered_settle _) fun d => ?_
    exact .bind (entered_internMethod d _) fun cm => entered_queueCall _
  · exact .bind relates_siteText fun _ => works_warnOf _

theorem asks_processDynamicCall (c : ContextId) (site : CallSiteId) (decl : CallSite)
    (call : DynamicCall) : Relates (Asks (if call.bootstrap != .stringConcat then
      [.unresolved none c site] else [])) (processDynamicCall c site decl call) := by
  unfold processDynamicCall
  by_cases concat : call.bootstrap = .stringConcat
  · rw [if_pos concat, concat, bne_self_eq_false, if_neg Bool.false_ne_true]
    split
    · exact works_of_entered (.bind (entered_mock _ _ _ _ rfl) fun o => entered_addObjectIn c _ _ o)
    · exact .pure
  · rw [if_neg concat, if_pos (bne_iff_ne.2 concat)]
    refine .modify fun _ => ⟨extends_announce, rfl, ?_, petitions_announce, makes_of_same rfl⟩
    rw [tidings_announce]
    exact List.append_nil _

theorem asks_processCall {s : Solver} (c : ContextId) (site : CallSiteId) :
    Ensures (processCall c site) s fun _ => Asks (s.program.petitionsOf c (.invoke site)) s := by
  refine .bind ensures_callSite ?_
  rintro decl _ ⟨rfl, hd⟩
  simp only [Program.petitionsOf, hd, Option.any_some, CallSite.isUnsupported]
  cases decl.kind with
  | static => exact works_processNamedCall c site _ _ s
  | special => exact works_processNamedCall c site _ _ s
  | virtual => exact .pure (refl_of Works s)
  | interface => exact .pure (refl_of Works s)
  | dynamic call => exact asks_processDynamicCall c site decl call s

theorem asks_processStatement {s : Solver} (cm : ContextMethodId) (m : InContext .method) (i : Nat)
    (statement : Statement) : Ensures (processStatement cm m i statement) s fun _ =>
      Asks (s.program.petitionsOf m.context statement) s := by
  cases statement with
  | new lhs type =>
    refine works_of_entered (.bind (entered_allocate _ _ _ trivial) fun o => ?_) s
    exact .bind (entered_settle _) fun d => entered_addObjectIn _ _ _ _
  | assign | cast => exact works_of_entered (entered_addVarFlow _ _ _ _ _) s
  | loadStatic | storeStatic =>
    exact works_of_entered (.bind (entered_internVar _ _) fun x => entered_addFlow _ _ _) s
  | invoke site => exact asks_processCall _ site
  | loadField | storeField | loadArray | storeArray | ret => exact .pure (refl_of Works s)

/-- In a loop, the questions follow each other. -/
theorem asks_forM {α : Type} {f : α → Solve PUnit} (questions : α → List Event) {p : Program}
    (round : ∀ a s, s.program = p → Ensures (f a) s fun _ => Asks (questions a) s) (l : List α)
    {s : Solver} (hs : s.program = p) :
    Ensures (l.forM f) s fun _ => Asks (l.flatMap questions) s := by
  induction l generalizing s with
  | nil => exact .pure (refl_of Works s)
  | cons a l ih =>
    refine .bind (round a s hs) fun _ t st => ?_
    exact (ih (st.program.trans hs)).mono fun _ u tu => st.trans tu

theorem asks_processMethod {s : Solver} (cm : ContextMethodId) :
    Ensures (processMethod cm) s fun _ t => ∃ m, s.elements.methods.get? cm = some m ∧
      Asks (s.program.petitions m) s t := by
  refine .bind ensures_methodAt ?_
  rintro m _ ⟨rfl, hm⟩
  refine .bind ensures_methodDecl ?_
  rintro d _ ⟨rfl, hd⟩
  refine (asks_forM (fun x => s.program.petitionsOf m.context x.1)
    (p := s.program) ?_ _ rfl).mono fun _ t asks => ⟨m, hm, ?_⟩
  · rintro ⟨statement, i⟩ t ht
    rw [← ht]
    exact asks_processStatement cm m i statement
  · simp only [Program.petitions, hd]
    have each : d.body.toList.zipIdx.flatMap (fun x => s.program.petitionsOf m.context x.1) =
        d.body.toList.flatMap (s.program.petitionsOf m.context) := by
      rw [← List.flatMap_map (f := Prod.fst), List.zipIdx_map_fst]
    exact each ▸ asks

/-- A method in its context is announced, and then its statements contribute. -/
theorem asks_introduce {s : Solver} (cm : ContextMethodId) : Ensures (do
    modify (·.announce (.contextMethod cm))
    processMethod cm : Solve Unit) s fun _ t => ∃ m, s.elements.methods.get? cm = some m ∧
      Asks (s.program.petitions m) (s.announce (.contextMethod cm)) t := by
  refine .bind ensures_modify ?_
  rintro _ _ rfl
  exact asks_processMethod cm

theorem extends_meet {s : Solver} (m : MethodId) :
    Extends s { s with reachedMethods := s.reachedMethods.insert m } :=
  { Extends.refl s with
    fresh := fun _ => .inl
    scheduled := fun h => ⟨h.filed, h.apart, h.waiting⟩
    calls := fun _ => .of_queue }

/-- The method that is entered is the one of the method in its context. -/
theorem ensures_enrols {s : Solver} (cm : ContextMethodId) :
    Ensures (enter cm) s fun _ t => s.Extends t ∧
      ∃ pair, s.elements.methods.get? cm = some pair ∧ Enrols cm pair.entity s t := by
  refine .bind ensures_methodAt ?_
  rintro pair _ ⟨rfl, hpair⟩
  refine .bind ensures_get ?_
  rintro _ _ ⟨rfl, rfl⟩
  split
  next unknown =>
    refine .bind ensures_modify ?_
    rintro _ _ rfl
    refine .bind ensures_modify ?_
    rintro _ _ rfl
    refine (asks_introduce cm).mono fun _ u ⟨m, hm, asks⟩ => ?_
    cases hpair.symm.trans hm
    have new : pair.entity ∉ s.reachedMethods := fun known => by
      rw [Std.TreeSet.mem_iff_contains] at known
      rw [known] at unknown
      exact Bool.false_ne_true unknown
    refine ⟨(((extends_meet _).trans extends_announce).trans extends_announce).trans asks.toExtends,
      pair, hpair, fun m => ?_, ?_, fun c hc => ?_, asks.makes⟩
    · rw [asks.reachedMethods]
      change m ∈ s.reachedMethods.insert pair.entity ↔ _
      rw [Std.TreeSet.mem_insert, Coded.compare_eq_iff, or_comm, eq_comm]
    · rw [asks.tidings, tidings_announce, tidings_announce, entering, if_neg new, List.append_assoc]
      rfl
    · rw [← Option.some.inj (hpair.symm.trans hc), asks.petitions, petitions_announce,
        petitions_announce]
      exact congrArg (· ++ _) ((List.append_nil _).trans (List.append_nil _))
  next known =>
    rw [Bool.not_eq_true', Bool.not_eq_false] at known
    have known : pair.entity ∈ s.reachedMethods := Std.TreeSet.mem_iff_contains.2 known
    refine (asks_introduce cm).mono fun _ t ⟨m, hm, asks⟩ => ?_
    cases hpair.symm.trans hm
    refine ⟨extends_announce.trans asks.toExtends, pair, hpair, fun m => ?_, ?_, fun c hc => ?_,
      asks.makes⟩
    · rw [asks.reachedMethods]
      exact ⟨.inl, fun h => h.elim id (· ▸ known)⟩
    · rw [asks.tidings, tidings_announce, entering, if_pos known]
      rfl
    · rw [← Option.some.inj (hpair.symm.trans hc), asks.petitions, petitions_announce]
      exact congrArg (· ++ _) (List.append_nil _)

/-- What becomes of a state when a method is reached in a context: nothing when it has been reached
before, and otherwise the method is entered. -/
inductive Admitted (cm : ContextMethodId) (s : Solver) : Solver → Prop
  | again (known : s.calls.Reaches cm) : Admitted cm s s
  | first {t : Solver} {pair : InContext .method} (fresh : (s.calls.reach cm).1 = true)
    (rest : Extends { s with calls := (s.calls.reach cm).2 } t)
    (place : s.elements.methods.get? cm = some pair) (enrols : Enrols cm pair.entity s t) :
    Admitted cm s t

theorem ensures_admitted {s : Solver} (cm : ContextMethodId) :
    Ensures (reach cm) s fun _ t => Admitted cm s t := by
  refine .bind ensures_change ?_
  rintro _ _ ⟨rfl, rfl⟩
  obtain ⟨known, eq⟩ | ⟨-, fresh, -, -, -⟩ := s.calls.reach_cases cm
  · simp only [eq]
    exact .pure (.again known)
  · simp only [fresh, if_true]
    refine (ensures_enrols cm).mono ?_
    rintro _ t ⟨rest, pair, place, enrols⟩
    exact .first fresh rest place enrols.of_withCalls

theorem entered_linkCall (site : InContext .callSite) (callee : InContext .method)
    (kind : CallEdgeKind) :
    Relates (EnteredBy AbstractObject.IsCore) (linkCall site callee kind) := by
  refine .bind relates_callSite fun decl => .bind relates_methodDecl fun target => ?_
  refine .bind (.forM fun _ _ => entered_addVarFlow _ _ _ _ _) fun _ => ?_
  -- the receiver is bound last, whether or not there is a result
  cases decl.result
  case' some => refine .bind (.forM fun _ _ => entered_addVarFlow _ _ _ _ _) fun _ => ?_
  all_goals
    dsimp only
    split
    · split
      · exact entered_addVarFlow _ _ _ _ _
      · exact .pure
    · exact .pure

theorem entered_processAccesses (c : ContextId) (uses : VarUses) (o : ContextObjectId) :
    Relates (EnteredBy AbstractObject.IsCore) (processAccesses c uses o) := by
  have var (v : VarId) : Relates (EnteredBy AbstractObject.IsCore)
      (do return .var (← change (·.internVar c v)) : Solve Pointer) := .bind (entered_internVar c v) fun _ => .pure
  refine .bind (.forM fun _ _ => .bind (var _) fun _ => entered_addFlow _ _ _) fun _ => ?_
  refine .bind (.forM fun _ _ => .bind (var _) fun _ => entered_addFlow _ _ _) fun _ => ?_
  refine .bind (.forM fun _ _ => .bind (var _) fun _ => entered_addFlow _ _ _) fun _ => ?_
  exact .forM fun _ _ => .bind (var _) fun _ => entered_addFlow _ _ _

theorem works_processReceiver (c : ContextId) (site : CallSiteId) (decl : CallSite)
    (o : ContextObjectId) : Relates Works (processReceiver c site decl o) := by
  refine .bind relates_dispatch? fun callee => ?_
  split
  · exact works_announceOf _ _ _
  · refine works_of_entered (.bind (entered_internSite c site) fun cs => ?_)
    refine .bind (entered_settle _) fun d => .bind (entered_bindReceiver d _ o) fun _ => ?_
    exact .bind (entered_internMethod d _) fun cm => entered_queueCall _

/-- What a variable passes on is announced in the end. -/
theorem ensures_announced_processVar {s : Solver} (x : ContextVarId) (delta : Objects) :
    Ensures (processVar x delta) s fun _ t =>
      ∃ u, s.Works u ∧ t = u.announce (.objects x delta) := by
  refine .bind (relates_varAt (R := Works) s) fun v t st => .bind ensures_get ?_
  rintro _ _ ⟨rfl, rfl⟩
  refine .bind (relates_known (R := Works) t) fun uses u tu => ?_
  have rest (u : Solver) : Ensures (do
      uses.invokes.forM fun site => do
        let decl ← callSite site
        delta.toList.forM (processReceiver v.context site decl)
      modify (·.announce (.objects x delta)) : Solve Unit) u fun _ t =>
        ∃ v, u.Works v ∧ t = v.announce (.objects x delta) := by
    refine .bind (Relates.forM (R := Works) (fun site _ => ?_) u) fun _ v uv => ?_
    · exact .bind relates_callSite fun decl => .forM fun o _ => works_processReceiver _ _ _ o
    · exact ensures_modify.mono fun _ t ht => ⟨v, uv, ht⟩
  refine .ite_bind (P := fun w => s.Works w) (fun _ => ?_) (fun _ => ?_) fun w sw => ?_
  · exact (works_of_entered (.forM fun o _ => entered_processAccesses _ uses o) u).mono fun _ w uw =>
      trans_of Works st (trans_of Works tu uw)
  · exact trans_of Works st tu
  · exact (rest w).mono fun _ t ⟨y, wy, ht⟩ => ⟨y, trans_of Works sw wy, ht⟩

theorem contributes_processVar (x : ContextVarId) (delta : Objects) :
    Relates Contributes (processVar x delta) := fun _ =>
  (ensures_announced_processVar x delta).mono fun _ _ ⟨_, su, ht⟩ =>
    trans_of Contributes (Asks.contributes su) (ht ▸ contributes_announce rfl)

theorem works_propagate (n : NodeId) (k : FlowKind) (objects : Objects) :
    Relates Works (propagate n k objects) := fun _ =>
  extends_propagate.mono fun _ _ ⟨eq, grown, _⟩ =>
    have rewires : Rewires _ _ := eq ▸ rewires_uniteInto
    rewires.works grown

/-- What becomes of a state when a node hands out its objects: nothing when it has none, and
otherwise plugins are told about them when it is the node of a variable. -/
inductive Handed (n : NodeId) (s : Solver) : Solver → Prop
  | idle (none : (s.points.flush n).1 = none) : Handed n s s
  | other {t : Solver} {delta : Objects} {p : Pointer} (handed : (s.points.flush n).1 = some delta)
    (works : Works { s with points := (s.points.flush n).2 } t)
    (node : t.flows.pointer? n = some p) (other : ∀ x, p ≠ .var x) : Handed n s t
  | var {t : Solver} {delta : Objects} {x : ContextVarId} (handed : (s.points.flush n).1 = some delta)
    (works : Works { s with points := (s.points.flush n).2 } t)
    (node : t.flows.pointer? n = some (.var x)) : Handed n s (t.announce (.objects x delta))

theorem handed_processNode {s : Solver} (n : NodeId) :
    Ensures (processNode n) s fun _ t => Handed n s t := by
  refine .bind ensures_change ?_
  rintro delta u ⟨hdelta, rfl⟩
  cases delta with
  | none =>
    have same := Facts.PendingStore.flush_eq_of_none hdelta.symm
    refine .pure ?_
    simp only [same]
    exact .idle hdelta.symm
  | some delta =>
    refine .bind ensures_get ?_
    rintro _ _ ⟨rfl, rfl⟩
    refine .bind (Relates.forM (R := Works) (fun e _ => works_propagate _ _ _) _) fun _ t st => ?_
    refine .bind ensures_get ?_
    rintro _ _ ⟨rfl, rfl⟩
    refine .bind ensures_known ?_
    rintro q _ ⟨rfl, node⟩
    cases q with
    | var x =>
      refine (ensures_announced_processVar x delta).mono ?_
      rintro _ _ ⟨u, tu, rfl⟩
      exact .var hdelta.symm (trans_of Works st tu) (tu.nodes n _ node)
    | _ => exact .pure (.other hdelta.symm st node nofun)

/-- A node hands out its objects, and the state grows from there; a node that has none leaves it as
it is. -/
theorem Handed.contributes {n : NodeId} {s t : Solver} (handed : Handed n s t) :
    Contributes { s with points := (s.points.flush n).2 } t ∧
      ((s.points.flush n).1 = none → t = s) := by
  obtain none | ⟨handed, works, -, -⟩ | ⟨handed, works, -⟩ := handed
  · rw [Facts.PendingStore.flush_eq_of_none none]
    exact ⟨refl_of Contributes s, fun _ => rfl⟩
  · exact ⟨works.contributes, fun none => by cases handed.symm.trans none⟩
  · exact ⟨trans_of Contributes works.contributes (contributes_announce rfl),
      fun none => by cases handed.symm.trans none⟩

/-! ### Adding calls -/

/-- What becomes of a state when a call is added: nothing when a call between the same ends has been
recorded, and otherwise the call is recorded, and a callee that has not been reached is entered. -/
inductive Recorded (caller : ContextMethodId) (edge : CallEdge) (s : Solver) : Solver → Prop
  | again (old : ∃ call, s.calls.Records call ∧ call.ends = (edge.site, edge.callee)) :
    Recorded caller edge s s
  | first {t : Solver}
    (fresh : ¬ ∃ call, s.calls.Records call ∧ call.ends = (edge.site, edge.callee))
    (rest : Extends { s with calls := (s.calls.add caller edge).2 } t)
    (entered : s.calls.Reaches edge.callee ∧ t.reachedMethods = s.reachedMethods ∧
        t.entrances = s.entrances ∨
      ∃ pair, s.elements.methods.get? edge.callee = some pair ∧
        Enters edge.callee pair.entity s t) : Recorded caller edge s t

/-- Moreover, plugins are told about the call, after they have been told about a callee that has not
been reached before. -/
inductive Added (caller : ContextMethodId) (edge : CallEdge) (s : Solver) : Solver → Prop
  | again (old : ∃ call, s.calls.Records call ∧ call.ends = (edge.site, edge.callee)) :
    Added caller edge s s
  | first {t u : Solver}
    (fresh : ¬ ∃ call, s.calls.Records call ∧ call.ends = (edge.site, edge.callee))
    (rest : Extends { s with calls := (s.calls.add caller edge).2 } t)
    (entered : s.calls.Reaches edge.callee ∧ t = { s with calls := (s.calls.add caller edge).2 } ∨
      ¬ s.calls.Reaches edge.callee ∧ ∃ pair, s.elements.methods.get? edge.callee = some pair ∧
        Enrols edge.callee pair.entity s t)
    (linked : Works (t.announce (.call edge)) u) : Added caller edge s u

theorem Added.recorded {caller : ContextMethodId} {edge : CallEdge} {s t : Solver}
    (h : Added caller edge s t) : Recorded caller edge s t := by
  cases h with
  | again old => exact .again old
  | first fresh rest entered linked =>
    have told := trans_of Contributes (contributes_announce rfl) linked.contributes
    refine .first fresh (rest.trans told.toExtends) ?_
    obtain ⟨old, rfl⟩ | ⟨-, pair, hpair, enrols⟩ := entered
    · exact .inl ⟨old, told.reachedMethods, told.entrances⟩
    · exact .inr ⟨pair, hpair, enrols.enters.contributes told⟩

/-- Calls are added only when their callers have been reached. -/
theorem ensures_added {s : Solver} (edge : CallEdge) :
    Ensures (processCallEdge edge) s fun _ t => ∃ site decl,
      s.elements.sites.get? edge.site = some site ∧
      s.program.callSites[site.entity]? = some decl ∧
      s.calls.Reaches (s.internMethod site.context decl.container).1 ∧
      Added (s.internMethod site.context decl.container).1 edge
        (s.internMethod site.context decl.container).2 t := by
  refine .bind ensures_siteAt ?_
  rintro site _ ⟨rfl, hsite⟩
  refine .bind ensures_callSite ?_
  rintro decl _ ⟨rfl, hdecl⟩
  refine .bind ensures_change ?_
  rintro caller u ⟨rfl, rfl⟩
  refine .bind ensures_get ?_
  rintro _ _ ⟨rfl, rfl⟩
  rw [show (s.internMethod site.context decl.container).2.calls = s.calls from rfl]
  by_cases reached : s.calls.Reaches (s.internMethod site.context decl.container).1
  case neg =>
    rw [if_pos (CallGraph.not_isReached_iff.2 reached)]
    refine .bind ensures_siteText fun _ _ _ => .bind ensures_get fun _ _ _ => ?_
    exact .bind (P := fun _ _ => False) .throw fun _ _ => False.elim
  rw [if_neg fun stopped => CallGraph.not_isReached_iff.1 stopped reached]
  refine Ensures.mono ?_ fun _ t told => ⟨site, decl, hsite, hdecl, reached, told⟩
  generalize (s.internMethod site.context decl.container).1 = caller
  generalize (s.internMethod site.context decl.container).2 = u
  refine .bind ensures_get ?_
  rintro _ _ ⟨rfl, rfl⟩
  refine .bind ensures_change ?_
  rintro _ _ ⟨rfl, rfl⟩
  obtain ⟨old, eq⟩ | ⟨fresh, flag, -, -, -⟩ := u.calls.add_cases caller edge
  · simp only [eq]
    exact .pure (.again old)
  · simp only [flag, if_true]
    refine .ite_bind (P := fun v => Extends { u with calls := (u.calls.add caller edge).2 } v ∧
      (u.calls.Reaches edge.callee ∧ v = { u with calls := (u.calls.add caller edge).2 } ∨
        ¬ u.calls.Reaches edge.callee ∧ ∃ pair, u.elements.methods.get? edge.callee = some pair ∧
          Enrols edge.callee pair.entity u v))
      (fun new => ?_) (fun old => ?_) ?_
    · rw [CallGraph.not_isReached_iff] at new
      refine (ensures_enrols edge.callee).mono ?_
      rintro _ v ⟨uv, pair, hpair, entered⟩
      exact ⟨uv, .inr ⟨new, pair, hpair, entered.of_withCalls⟩⟩
    · rw [CallGraph.not_isReached_iff, not_not] at old
      exact ⟨.refl _, .inl ⟨old, rfl⟩⟩
    rintro v ⟨uv, entered⟩
    refine Ensures.mono (P := fun _ => Works (v.announce (.call edge))) ?_ fun _ t =>
      .first fresh uv entered
    refine .bind ensures_modify ?_
    rintro _ _ rfl
    split
    · exact .pure (refl_of Works _)
    · exact Relates.bind relates_methodAt
        (fun callee => works_of_entered (entered_linkCall site callee _)) _

theorem ensures_recorded {s : Solver} (edge : CallEdge) :
    Ensures (processCallEdge edge) s fun _ t => ∃ site decl,
      s.elements.sites.get? edge.site = some site ∧
      s.program.callSites[site.entity]? = some decl ∧
      s.calls.Reaches (s.internMethod site.context decl.container).1 ∧
      Recorded (s.internMethod site.context decl.container).1 edge
        (s.internMethod site.context decl.container).2 t :=
  (ensures_added edge).mono fun _ _ ⟨site, decl, hsite, hdecl, reached, told⟩ =>
    ⟨site, decl, hsite, hdecl, reached, told.recorded⟩

/-! ### All work

A relation that what happens between two pieces of work respects, and each of the three changes above,
is respected by whole pieces of work.
-/

section All

variable {R : Solver → Solver → Prop} [IsPreorder Solver R] (works : ∀ s t, Works s t → R s t)
include works

theorem relates_reachEntries (admits : ∀ cm s t, Admitted cm s t → R s t) :
    Relates R reachEntries :=
  .bind relates_catalog fun _ => .forM fun m _ =>
    .bind ((works_of_entered (entered_internMethod _ m)).mono works) fun cm s =>
      (ensures_admitted cm).mono fun _ t => admits cm s t

theorem relates_step
    (taken : ∀ s calls nodes, R s { s with callQueue := calls, worklist := nodes })
    (adds : ∀ caller edge s t, s.calls.Reaches caller → Added caller edge s t → R s t)
    (hands : ∀ n s t, Handed n s t → R s t) : Relates R step := fun s => by
  refine ensures_step_cases (fun edge rest _ => ?_) (fun n rest _ _ => ?_) fun _ => refl_of R s
  · refine (ensures_added edge).mono ?_
    rintro _ t ⟨site, decl, -, -, reached, added⟩
    have interned : Works { s with callQueue := rest } _ :=
      EnteredBy.works (.single ⟨.method _ site.context decl.container, makes_of_same rfl⟩)
    refine trans_of R (taken s rest s.worklist) (trans_of R (works _ _ interned) ?_)
    exact adds _ edge _ t reached added
  · exact (handed_processNode n).mono fun _ t handed =>
      trans_of R (taken s s.callQueue rest) (hands n _ t handed)

end All

end Solve
end PointsTo
