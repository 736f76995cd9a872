import PointsTo.Proofs.Sharing.Core

/-!
The steps of solving in lockstep.
-/
namespace PointsTo.Solve

open Solver

variable {W : Bond} {c c' : ContextId}

/-! ### Methods that are reached -/

theorem lockstep_processNamedCall (same : W c c') (site : CallSiteId) (target : MethodRef)
    (kind : CallEdgeKind) : Lockstep Solver.Twins W (processNamedCall c site target kind)
      (processNamedCall c' site target kind) Same := by
  apply Lockstep.get.bind
  rintro V grown s t ⟨-, -⟩
  dsimp only
  cases s.program.resolve target with
  | some callee =>
    apply (lockstep_change fun s t twins => twins.internSite (grown same) site).bindSame
    intro V _ contextSite
    apply (lockstep_calleeContext contextSite).bind
    intro V _ d d' same'
    apply (lockstep_change fun s t twins => twins.internMethod same' callee).bindSame
    intro V _ contextCallee
    apply Lockstep.modify
    rintro s t ⟨elements, awaited⟩
    exact .mk elements awaited
  | none =>
    apply (lockstep_siteText site).bindSame
    intro V _ text
    apply Lockstep.modify
    rintro s t ⟨elements, awaited⟩
    exact .mk elements awaited

theorem lockstep_processDynamicCall (same : W c c') (site : CallSiteId) (decl : CallSite)
    (call : DynamicCall) : Lockstep Solver.Twins W (processDynamicCall c site decl call)
      (processDynamicCall c' site decl call) Same := by
  unfold processDynamicCall
  split
  · split
    next _ result type _ =>
      apply (lockstep_change fun s t twins => twins.mock _ site type _).bindSame
      intro V grown o
      apply Lockstep.modify
      intro s t twins
      exact twins.addObjectIn (grown same) twins.elements.empty result o
    next => exact .pure rfl
  · apply Lockstep.modify
    intro s t twins
    exact twins.announce (.unresolved none same site)

theorem lockstep_processCall (same : W c c') (site : CallSiteId) :
    Lockstep Solver.Twins W (processCall c site) (processCall c' site) Same := by
  apply (lockstep_callSite site).bindSame
  intro V grown decl
  cases decl.kind with
  | static => exact lockstep_processNamedCall (grown same) site decl.target .static
  | special => exact lockstep_processNamedCall (grown same) site decl.target .special
  | virtual | interface => exact .pure rfl
  | dynamic call => exact lockstep_processDynamicCall (grown same) site decl call

theorem lockstep_processStatement {m m' : InContext .method} (same : m.Twins W m')
    (contextMethod : ContextMethodId) (index : Nat) (statement : Statement) :
    Lockstep Solver.Twins W (processStatement contextMethod m index statement)
      (processStatement contextMethod m' index statement) Same := by
  obtain ⟨d, m⟩ := m
  obtain ⟨d', m'⟩ := m'
  obtain rfl : m' = m := same.entity
  have bond : W d d' := same.context
  cases statement with
  | new lhs type =>
    apply (lockstep_change fun s t twins => twins.allocate _ index type).bindSame
    intro V grown o
    apply (lockstep_heapContext contextMethod).bind
    intro V' grown' e e' heap
    apply Lockstep.modify
    intro s t twins
    exact twins.addObjectIn (grown' (grown bond)) heap lhs o
  | assign lhs rhs => exact lockstep_addVarFlow bond bond rhs lhs .assign
  | cast lhs rhs type => exact lockstep_addVarFlow bond bond rhs lhs (.cast type)
  | loadStatic lhs field =>
    apply (lockstep_change fun s t twins => twins.internVar bond lhs).bindSame
    intro V _ lhs
    exact lockstep_addFlow (.static field) (.var lhs) .staticLoad
  | storeStatic field rhs =>
    apply (lockstep_change fun s t twins => twins.internVar bond rhs).bindSame
    intro V _ rhs
    exact lockstep_addFlow (.var rhs) (.static field) .staticStore
  | invoke site => exact lockstep_processCall bond site
  | loadField | storeField | loadArray | storeArray | ret => exact .pure rfl

theorem lockstep_processMethod (contextMethod : ContextMethodId) :
    Lockstep Solver.Twins W (processMethod contextMethod) (processMethod contextMethod) Same := by
  apply (lockstep_methodAt contextMethod).bind
  rintro V - ⟨d, m⟩ ⟨d', m'⟩ same
  obtain rfl : m' = m := same.entity
  apply (lockstep_methodDecl m').bindSame
  intro V' grown decl
  apply Lockstep.forM
  rintro ⟨statement, index⟩ - U larger
  have here : InContext.Twins U ⟨d, m'⟩ ⟨d', m'⟩ := ⟨rfl, larger (grown same.context)⟩
  exact lockstep_processStatement here contextMethod index statement

theorem lockstep_enter (contextMethod : ContextMethodId) :
    Lockstep Solver.Twins W (enter contextMethod) (enter contextMethod) Same := by
  have rest {V : Bond} : Lockstep Solver.Twins V
      (do modify (·.announce (.contextMethod contextMethod)); processMethod contextMethod)
      (do modify (·.announce (.contextMethod contextMethod)); processMethod contextMethod) Same := by
    apply Lockstep.bindSame (Lockstep.modify fun s t twins => twins.announce (.contextMethod _))
    intro V _ _
    exact lockstep_processMethod contextMethod
  apply (lockstep_methodAt contextMethod).bind
  rintro V - ⟨d, m⟩ ⟨d', m'⟩ same
  obtain rfl : m' = m := same.entity
  apply Lockstep.get.bind
  rintro V - s t ⟨-, -⟩
  dsimp only
  split
  · apply Lockstep.bindSame (Lockstep.modify ?_)
    · intro V _ _
      apply Lockstep.bindSame (Lockstep.modify fun s t twins => twins.announce (.method _))
      intro V _ _
      exact rest
    · rintro s t ⟨elements, awaited⟩
      exact .mk elements awaited
  · exact rest

theorem lockstep_reach (contextMethod : ContextMethodId) :
    Lockstep Solver.Twins W (reach contextMethod) (reach contextMethod) Same := by
  apply Lockstep.bindSame (lockstep_change ?_)
  · intro V _ fresh
    split
    · exact lockstep_enter contextMethod
    · exact .pure rfl
  · rintro s t ⟨elements, awaited⟩
    exact ⟨rfl, .mk elements awaited⟩

theorem lockstep_reachEntries : Lockstep Solver.Twins W reachEntries reachEntries Same := by
  apply lockstep_catalog.bindSame
  intro V _ catalog
  apply Lockstep.forM
  intro entry _ V _
  apply Lockstep.bindSame (lockstep_change ?_)
  · intro V _ contextMethod
    exact lockstep_reach contextMethod
  · intro s t twins
    exact twins.internMethod twins.elements.empty entry

/-! ### Calls -/

/-- The receiver of a special call is bound. -/
theorem lockstep_bindBase {d d' : ContextId} (calling : W c c') (called : W d d')
    (kind : CallEdgeKind) (decl : CallSite) (target : MethodDecl) : Lockstep Solver.Twins W
      (do
        if kind = .special then
          if let (some base, some receiver) := (decl.base, target.receiver) then
            addVarFlow c base d receiver .parameter)
      (do
        if kind = .special then
          if let (some base, some receiver) := (decl.base, target.receiver) then
            addVarFlow c' base d' receiver .parameter) Same := by
  split
  · split
    · exact lockstep_addVarFlow calling called _ _ .parameter
    · exact .pure rfl
  · exact .pure rfl

theorem lockstep_linkCall {site site' : InContext .callSite} {callee callee' : InContext .method}
    (same : site.Twins W site') (same' : callee.Twins W callee') (kind : CallEdgeKind) :
    Lockstep Solver.Twins W (linkCall site callee kind) (linkCall site' callee' kind) Same := by
  obtain ⟨c, site⟩ := site
  obtain ⟨c', site'⟩ := site'
  obtain ⟨d, callee⟩ := callee
  obtain ⟨d', callee'⟩ := callee'
  obtain rfl : site' = site := same.entity
  obtain rfl : callee' = callee := same'.entity
  have calling : W c c' := same.context
  have called : W d d' := same'.context
  apply (lockstep_callSite site').bindSame
  intro V₁ le₁ decl
  apply (lockstep_methodDecl callee').bindSame
  intro V₂ le₂ target
  -- the receiver is bound last, whether or not there is a result
  have special {V : Bond} (le : Subrelation V₂ V) :=
    lockstep_bindBase (le (le₂ (le₁ calling))) (le (le₂ (le₁ called))) kind decl target
  apply Lockstep.bindSame
  · apply Lockstep.forM
    rintro ⟨arg, param⟩ - V le
    exact lockstep_addVarFlow (le (le₂ (le₁ calling))) (le (le₂ (le₁ called))) arg param .parameter
  · intro V₃ le₃ _
    cases decl.result with
    | none => exact special le₃
    | some result =>
      apply Lockstep.bindSame
      · apply Lockstep.forM
        intro value _ V le
        have bond {x x' : ContextId} (h : W x x') : V x x' := le (le₃ (le₂ (le₁ h)))
        exact lockstep_addVarFlow (bond called) (bond calling) value result .ret
      · intro V₄ le₄ _
        exact special fun h => le₄ (le₃ h)

/-- What follows once a call has been recorded. -/
theorem lockstep_announceCall {site site' : InContext .callSite} (same : site.Twins W site')
    (edge : CallEdge) :
    Lockstep Solver.Twins W
      (do
        modify (·.announce (.call edge))
        match edge.kind with
        | .extension .. => return
        | kind => linkCall site (← methodAt edge.callee) kind)
      (do
        modify (·.announce (.call edge))
        match edge.kind with
        | .extension .. => return
        | kind => linkCall site' (← methodAt edge.callee) kind) Same := by
  apply Lockstep.bindSame (Lockstep.modify fun s t twins => twins.announce (.call edge))
  intro V le _
  have link (kind : CallEdgeKind) : Lockstep Solver.Twins V
      (do linkCall site (← methodAt edge.callee) kind)
      (do linkCall site' (← methodAt edge.callee) kind) Same := by
    apply (lockstep_methodAt edge.callee).bind
    intro V' le' callee callee' same'
    exact lockstep_linkCall ⟨same.entity, le' (le same.context)⟩ same' kind
  cases edge.kind with
  | extension tag origin => exact .pure rfl
  | static => exact link .static
  | special => exact link .special
  | virtual => exact link .virtual
  | interface => exact link .interface

theorem lockstep_processCallEdge (edge : CallEdge) :
    Lockstep Solver.Twins W (processCallEdge edge) (processCallEdge edge) Same := by
  apply (lockstep_siteAt edge.site).bind
  rintro V₁ - ⟨c, site⟩ ⟨c', site'⟩ same
  obtain rfl : site' = site := same.entity
  apply (lockstep_callSite site').bindSame
  intro V₂ le₂ decl
  apply (lockstep_change fun s t twins => twins.internMethod (le₂ same.context) decl.container).bindSame
  intro V₃ le₃ caller
  apply Lockstep.get.bind
  rintro V₄ le₄ s t ⟨-, -⟩
  dsimp only
  split
  · apply (lockstep_siteText site').bindSame
    intro V₅ le₅ text
    apply Lockstep.get.bind
    intro V₆ le₆ s t twins
    rw [twins.elements.context_eq (le₆ (le₅ (le₄ (le₃ (le₂ same.context)))))]
    apply (Lockstep.throw (A := fun _ _ _ => False)).bind
    intro _ _ _ _ never
    exact never.elim
  · apply Lockstep.get.bind
    rintro V₅ le₅ s t ⟨-, -⟩
    apply Lockstep.bindSame (lockstep_change ?_)
    · intro V₆ le₆ fresh
      have bond : V₆ c c' := le₆ (le₅ (le₄ (le₃ (le₂ same.context))))
      dsimp only
      split
      · split
        · apply (lockstep_enter edge.callee).bindSame
          intro V₇ le₇ _
          have here : InContext.Twins V₇ ⟨c, site'⟩ ⟨c', site'⟩ := ⟨rfl, le₇ bond⟩
          exact lockstep_announceCall here edge
        · have here : InContext.Twins V₆ ⟨c, site'⟩ ⟨c', site'⟩ := ⟨rfl, bond⟩
          exact lockstep_announceCall here edge
      · exact .pure rfl
    · rintro s t ⟨elements, awaited⟩
      exact ⟨rfl, .mk elements awaited⟩

/-! ### Nodes -/

theorem lockstep_processAccesses (same : W c c') (uses : VarUses) (o : ContextObjectId) :
    Lockstep Solver.Twins W (processAccesses c uses o) (processAccesses c' uses o) Same := by
  have var {V : Bond} (bond : V c c') (v : VarId) : Lockstep Solver.Twins V
      (do return Pointer.var (← change (·.internVar c v)))
      (do return Pointer.var (← change (·.internVar c' v))) Same := by
    apply (lockstep_change fun s t twins => twins.internVar bond v).bindSame
    intro V _ copy
    exact .pure rfl
  unfold processAccesses
  apply Lockstep.bindSame
  · apply Lockstep.forM
    rintro ⟨field, lhs⟩ - V le
    apply (var (le same) lhs).bindSame
    intro V _ target
    exact lockstep_addFlow _ target .fieldLoad
  intro V₁ le₁ _
  apply Lockstep.bindSame
  · apply Lockstep.forM
    rintro ⟨field, rhs⟩ - V le
    apply (var (le (le₁ same)) rhs).bindSame
    intro V _ source
    exact lockstep_addFlow source _ .fieldStore
  intro V₂ le₂ _
  apply Lockstep.bindSame
  · apply Lockstep.forM
    intro lhs _ V le
    apply (var (le (le₂ (le₁ same))) lhs).bindSame
    intro V _ target
    exact lockstep_addFlow _ target .arrayLoad
  intro V₃ le₃ _
  apply Lockstep.forM
  intro rhs _ V le
  apply (var (le (le₃ (le₂ (le₁ same)))) rhs).bindSame
  intro V _ source
  exact lockstep_addFlow source _ .arrayStore

theorem lockstep_dispatch? (receiver : ContextObjectId) (target : MethodRef) :
    Lockstep Solver.Twins W (dispatch? receiver target) (dispatch? receiver target) Same := by
  apply (lockstep_objectAt receiver).bindSame
  intro V _ o
  apply lockstep_catalog.bindSame
  intro V _ catalog
  apply (lockstep_known_same catalog.types[o.type]?).bindSame
  intro V _ _
  apply Lockstep.get.bind
  rintro V - s t ⟨-, -⟩
  exact .pure rfl

theorem lockstep_bindReceiver (same : W c c') (callee : MethodId) (receiver : ContextObjectId) :
    Lockstep Solver.Twins W (bindReceiver c callee receiver) (bindReceiver c' callee receiver) Same := by
  apply (lockstep_methodDecl callee).bindSame
  intro V le decl
  cases decl.receiver with
  | none => exact .pure rfl
  | some this =>
    apply (lockstep_change fun s t twins => twins.internVar (le same) this).bindSame
    intro V _ this
    apply Lockstep.modify
    intro s t twins
    exact twins.addObject (.var this) receiver

theorem lockstep_processReceiver (same : W c c') (site : CallSiteId) (decl : CallSite)
    (receiver : ContextObjectId) : Lockstep Solver.Twins W (processReceiver c site decl receiver)
      (processReceiver c' site decl receiver) Same := by
  apply (lockstep_dispatch? receiver decl.target).bindSame
  intro V₁ le₁ target
  cases target with
  | none =>
    apply Lockstep.modify
    intro s t twins
    exact twins.announce (.unresolved (some receiver) (le₁ same) site)
  | some callee =>
    apply (lockstep_change fun s t twins => twins.internSite (le₁ same) site).bindSame
    intro V₂ _ contextSite
    apply (lockstep_dispatchContext contextSite receiver).bind
    intro V₃ _ d d' called
    apply (lockstep_bindReceiver called callee receiver).bindSame
    intro V₄ le₄ _
    apply (lockstep_change fun s t twins => twins.internMethod (le₄ called) callee).bindSame
    intro V₅ _ contextCallee
    apply Lockstep.modify
    rintro s t ⟨elements, awaited⟩
    exact .mk elements awaited

theorem lockstep_processVar (var : ContextVarId) (delta : Objects) :
    Lockstep Solver.Twins W (processVar var delta) (processVar var delta) Same := by
  apply (lockstep_varAt var).bind
  rintro V₁ - ⟨c, v⟩ ⟨c', v'⟩ same
  obtain rfl : v' = v := same.entity
  have bond : V₁ c c' := same.context
  apply Lockstep.get.bind
  rintro V₂ le₂ s t ⟨-, -⟩
  apply (lockstep_known_same s.program.uses[v']?).bindSame
  intro V₃ le₃ uses
  have calls {V : Bond} (le : Subrelation V₃ V) : Lockstep Solver.Twins V
      (do
        uses.invokes.forM fun site => do
          let decl ← callSite site
          delta.toList.forM (processReceiver c site decl)
        modify (·.announce (.objects var delta)))
      (do
        uses.invokes.forM fun site => do
          let decl ← callSite site
          delta.toList.forM (processReceiver c' site decl)
        modify (·.announce (.objects var delta))) Same := by
    apply Lockstep.bindSame
    · apply Lockstep.forM
      intro site _ V₅ le₅
      apply (lockstep_callSite site).bindSame
      intro V₆ le₆ decl
      apply Lockstep.forM
      intro o _ V₇ le₇
      exact lockstep_processReceiver (le₇ (le₆ (le₅ (le (le₃ (le₂ bond)))))) site decl o
    · intro V _ _
      exact .modify fun s t twins => twins.announce (.objects var delta)
  dsimp only
  split
  · apply Lockstep.bindSame
    · apply Lockstep.forM
      intro o _ V le
      exact lockstep_processAccesses (le (le₃ (le₂ bond))) uses o
    · intro V le _
      exact calls le
  · exact calls id

theorem lockstep_processNode (n : NodeId) :
    Lockstep Solver.Twins W (processNode n) (processNode n) Same := by
  apply Lockstep.bindSame (lockstep_change ?_)
  · intro V _ delta
    cases delta with
    | none => exact .pure rfl
    | some delta =>
      apply Lockstep.get.bind
      rintro V - s t ⟨-, -⟩
      apply Lockstep.bindSame
      · apply Lockstep.forM
        rintro ⟨target, kind⟩ - V -
        exact lockstep_propagate target kind delta
      · intro V _ _
        apply Lockstep.get.bind
        rintro V - s t ⟨-, -⟩
        apply (lockstep_known_same (s.flows.pointer? n)).bindSame
        intro V _ p
        cases p with
        | var v => exact lockstep_processVar v delta
        | field | array | static => exact .pure rfl
  · rintro s t ⟨elements, awaited⟩
    exact ⟨rfl, .mk elements awaited⟩

theorem lockstep_step : Lockstep Solver.Twins W step step Same := by
  apply Lockstep.get.bind
  rintro V - s t ⟨elements, awaited⟩
  dsimp only
  cases s.callQueue.pop? with
  | some next =>
    apply (Lockstep.set (.mk elements awaited)).bindSame
    intro V _ _
    apply (lockstep_processCallEdge next.1).bindSame
    intro V _ _
    exact .pure rfl
  | none =>
    cases s.worklist.pop? with
    | some next =>
      apply (Lockstep.set (.mk elements awaited)).bindSame
      intro V _ _
      apply (lockstep_processNode next.1).bindSame
      intro V _ _
      exact .pure rfl
    | none => exact .pure rfl

end PointsTo.Solve
