import PointsTo.Proofs.Safety.Changes

/-!
Computations that keep a state in order and fail for external reasons only: rules to compose them,
and the operations that all pieces of work are made of.
-/
namespace PointsTo

open Facts

variable {α β : Type} {p : Program} {sel : Selector} {promised : Option (ContextId × MethodId)}
  {s t : Solver}

/-- When the state `s` is in order, `f` leaves a later one in order together with a value that
satisfies `Q`, or it fails with a fault that is not internal. -/
def Advancing (p : Program) (sel : Selector) (promised : Option (ContextId × MethodId))
    (f : Solve α) (s : Solver) (Q : α → Solver → Prop) : Prop :=
  Grounded p sel promised s → Safe f s fun a t => Advances p sel promised s t ∧ Q a t

namespace Advancing

variable {f : Solve α} {g : α → Solve β} {P Q : α → Solver → Prop} {R : β → Solver → Prop}

theorem mono (h : Advancing p sel promised f s P) (imp : ∀ a t, s.Later t → P a t → Q a t) :
    Advancing p sel promised f s Q := fun hs =>
  (h hs).mono fun a t ⟨st, post⟩ => ⟨st, imp a t st.toLater post⟩

theorem pure {a : α} (h : Q a s) : Advancing p sel promised (Pure.pure a) s Q := fun hs =>
  .pure ⟨.refl hs, h⟩

theorem throw {fault : Fault} (external : ¬ fault.IsInternal) :
    Advancing p sel promised (MonadExcept.throw fault) s Q := fun _ => .throw external

theorem bind (hf : Advancing p sel promised f s P)
    (hg : ∀ a t, s.Later t → P a t → Advancing p sel promised (g a) t R) :
    Advancing p sel promised (f >>= g) s R := fun hs =>
  (hf hs).bind fun a t ⟨st, post⟩ =>
    (hg a t st.toLater post st.grounded).mono fun _ _ ⟨tu, post⟩ => ⟨st.trans tu, post⟩

/-- A lookup leaves the state alone. -/
theorem afterAny {P : α → Prop} (hf : Safe f s fun b t => s = t ∧ P b)
    (hg : ∀ a, P a → Advancing p sel promised (g a) s R) :
    Advancing p sel promised (f >>= g) s R := fun hs => hf.bind fun b t ⟨same, post⟩ => by
  subst same
  exact hg b post hs

/-- The same, when it is known what the lookup gives. -/
theorem after {a : α} (hf : Safe f s fun b t => s = t ∧ b = a)
    (hg : Advancing p sel promised (g a) s R) : Advancing p sel promised (f >>= g) s R :=
  afterAny hf fun _ same => same ▸ hg

theorem afterGet {g : Solver → Solve β} (hg : Advancing p sel promised (g s) s R) :
    Advancing p sel promised (get >>= g) s R := after (.get ⟨rfl, rfl⟩) hg

theorem change {f : Solver → α × Solver}
    (h : Grounded p sel promised s → Advances p sel promised s (f s).2 ∧ Q (f s).1 (f s).2) :
    Advancing p sel promised (Solve.change f) s Q := fun hs => .modifyGet (h hs)

theorem modify {f : Solver → Solver} {Q : PUnit → Solver → Prop}
    (h : Grounded p sel promised s → Advances p sel promised s (f s)) (post : Q ⟨⟩ (f s)) :
    Advancing p sel promised (modify f) s Q := fun hs => .modify ⟨h hs, post⟩

theorem forM {l : List α} {f : α → Solve PUnit}
    (round : ∀ a ∈ l, ∀ t, s.Later t → Advancing p sel promised (f a) t fun _ _ => True) :
    Advancing p sel promised (l.forM f) s fun _ _ => True := fun hs =>
  (Safe.forM (I := Advances p sel promised s) (.refl hs) fun a ha t st =>
    (round a ha t st.toLater st.grounded).mono fun _ _ h => st.trans h.1).mono fun _ _ h =>
      ⟨h, trivial⟩

/-- A promise may be made that is kept in the end. -/
theorem promising {c : ContextId} {m : MethodId}
    (h : Advancing p sel (some (c, m)) f s fun a t => t.Alive none c m ∧ Q a t) :
    Advancing p sel none f s Q := fun hs =>
  (h hs.promise).mono fun _ _ ⟨st, alive, post⟩ => ⟨⟨st.toLater, st.grounded.keep alive⟩, post⟩

end Advancing

/-! ### Contexts -/

namespace Selector

/-- A selection gives an id that names something, or a context that may come up. -/
def Suits (e : Elements) (p : Catalog) (limit : Nat) : Except Fault Selection → Prop
  | .ok (.known c) => e.Knows p limit c
  | .ok (.built l) => e.Regular p limit l
  | .error fault => ¬ fault.IsInternal

variable {e : Elements} {c : ContextId}

theorem suits_pushed {p : Catalog} {limit : Nat} (hc : e.Knows p limit c) {element : ContextElement}
    (reads : e.Reads p element) : Suits e p limit (pushed e limit element c) := by
  unfold pushed Context.extend
  split
  · refine ⟨List.length_take_le _ _, fun x hx => ?_⟩
    obtain rfl | hx := List.mem_cons.1 (List.mem_of_mem_take hx)
    · exact reads
    · exact hc.regular.reads x hx
  · exact id

variable {p : Catalog} {sel : Selector} (h : e.Ranged p sel.limit)
include h

theorem suits_calleeContext {site : ContextSiteId} {pair : InContext .callSite}
    (hs : e.sites.get? site = some pair) :
    Suits e p sel.limit (sel.calleeContext e site) := by
  obtain ⟨hc, lt⟩ := h.sites site pair hs
  cases sel with
  | insensitive => exact Elements.knows_emptyId
  | callSite k =>
    simp only [calleeContext, known, hs]
    exact suits_pushed hc lt
  | object k | type k =>
    simp only [calleeContext, known, hs]
    exact hc

theorem suits_dispatchContext (sealed : p.Sealed) {site : ContextSiteId}
    {pair : InContext .callSite} (hs : e.sites.get? site = some pair) {o : ContextObjectId}
    {r : InContext .object} (ho : e.objects.get? o = some r) :
    Suits e p sel.limit (sel.dispatchContext p e site o) := by
  obtain ⟨hc, a, ha⟩ := h.objects o r ho
  cases sel with
  | insensitive => exact suits_calleeContext h hs
  | callSite k => exact suits_calleeContext h hs
  | object k =>
    simp only [dispatchContext, known, ho]
    exact suits_pushed hc ⟨a, ha⟩
  | type k =>
    have makes := h.heap _ a ha
    have allocator : ∃ type, allocatorType? p a = some type ∧ type.index < p.types.size := by
      unfold allocatorType?
      split
      next m hm =>
        obtain ⟨d, hd⟩ := Roster.exists_getElem? (makes.container m hm)
        exact ⟨d.ref.owner, by rw [hd]; rfl, (sealed.methods m d hd).ref.owner⟩
      next => exact ⟨a.type, rfl, makes.type⟩
    obtain ⟨type, ht, lt⟩ := allocator
    simp only [dispatchContext, known, ho, Bind.bind, Except.bind, Pure.pure, Except.pure,
      show e.heap.get? r.entity = some a from ha, Option.bind, ht]
    exact suits_pushed hc (show e.Reads p (.type type) from lt)

theorem suits_heapContext {cm : ContextMethodId} {pair : InContext .method}
    (hm : e.methods.get? cm = some pair) : Suits e p sel.limit (sel.heapContext e cm) := by
  obtain ⟨hc, -⟩ := h.methods cm pair hm
  unfold heapContext
  split
  · exact Elements.knows_emptyId
  · simp only [known, hm]
    by_cases short : (e.context pair.context).length < sel.limit
    · simp only [short, if_true, Bind.bind, Except.bind, Pure.pure, Except.pure]
      exact hc
    · simp only [short, if_false, Bind.bind, Except.bind, Pure.pure, Except.pure]
      exact ⟨Nat.le_trans (List.length_take_le _ _) (Nat.sub_le _ _), fun x hx =>
        hc.regular.reads x (List.mem_of_mem_take hx)⟩

end Selector

namespace Solve

/-! ### Ids -/

section Contexts

variable {c : ContextId} (hc : s.elements.Knows p.toCatalog sel.limit c)
include hc

theorem advancing_internVar {v : VarId} (hv : v.index < p.vars.size) :
    Advancing p sel promised (change (·.internVar c v)) s fun x t =>
      t.elements.vars.get? x = some ⟨c, v⟩ := .change fun hs => hs.internVar hc hv

theorem advancing_internObject {o : ObjectId} (ho : ∃ a, s.elements.heap.get? o = some a) :
    Advancing p sel promised (change (·.internObject c o)) s fun x t =>
      t.elements.objects.get? x = some ⟨c, o⟩ := .change fun hs => hs.internObject hc ho

theorem advancing_internMethod {m : MethodId} (hm : m.index < p.methods.size) :
    Advancing p sel promised (change (·.internMethod c m)) s fun x t =>
      t.elements.methods.get? x = some ⟨c, m⟩ := .change fun hs => hs.internMethod hc hm

theorem advancing_internSite {site : CallSiteId} (hsite : site.index < p.callSites.size) :
    Advancing p sel promised (change (·.internSite c site)) s fun x t =>
      t.elements.sites.get? x = some ⟨c, site⟩ := .change fun hs => hs.internSite hc hsite

end Contexts

theorem advancing_allocate {m : MethodId} {d : MethodDecl} {i : Nat} {type : TypeId}
    (hd : p.methods[m]? = some d) (hi : i < d.body.size) (ht : type.index < p.types.size) :
    Advancing p sel promised (change (·.allocate m i type)) s fun o t =>
      ∃ a, t.elements.heap.get? o = some a := .change fun hs => hs.allocate hd hi ht

theorem advancing_mock {description : String} (allowed : description ∈ mockDescriptions)
    {site : CallSiteId} (hsite : site.index < p.callSites.size) {type : TypeId}
    (ht : type.index < p.types.size) {container : Option MethodId}
    (hm : ∀ m, container = some m → m.index < p.methods.size) :
    Advancing p sel promised (change (·.mock description site type container)) s fun o t =>
      ∃ a, t.elements.heap.get? o = some a := .change fun hs => hs.mock allowed hsite ht hm

theorem advancing_settle {select : Solver → Except Fault Selection}
    (suits : Selector.Suits s.elements p.toCatalog sel.limit (select s)) :
    Advancing p sel promised (settle select) s fun c t => t.elements.Knows p.toCatalog sel.limit c := by
  refine .afterGet ?_
  have selected : Safe (.mk (pure (select s)) : Solve Selection) s fun selection t =>
      s = t ∧ select s = .ok selection := by
    cases h : select s with
    | error fault =>
      rw [h] at suits
      exact .throw suits
    | ok selection => exact .pure ⟨rfl, rfl⟩
  refine fun hs => .bind selected ?_
  rintro selection _ ⟨rfl, chosen⟩
  rw [chosen] at suits
  refine Advancing.change (fun hs => ?_) hs
  cases selection with
  | known c => exact ⟨.refl hs, suits⟩
  | built l =>
    exact ⟨hs.internContext, l, ContextTable.get?_intern,
      Elements.Regular.within suits Elements.within_internContext⟩

theorem advancing_calleeContext {site : ContextSiteId} {pair : InContext .callSite}
    (hsite : s.elements.sites.get? site = some pair) :
    Advancing p sel promised (calleeContext site) s fun c t => t.elements.Knows p.toCatalog sel.limit c := fun hs => by
  refine advancing_settle ?_ hs
  rw [hs.selector]
  exact Selector.suits_calleeContext hs.elements hsite

theorem advancing_dispatchContext {site : ContextSiteId} {pair : InContext .callSite}
    (hsite : s.elements.sites.get? site = some pair) {o : ContextObjectId}
    (ho : ∃ r, s.elements.objects.get? o = some r) :
    Advancing p sel promised (dispatchContext site o) s fun c t => t.elements.Knows p.toCatalog sel.limit c :=
  fun hs => by
  obtain ⟨r, ho⟩ := ho
  refine advancing_settle ?_ hs
  rw [hs.selector, Solver.catalog, hs.program]
  exact Selector.suits_dispatchContext hs.elements hs.wellFormed.complete hsite ho

theorem advancing_heapContext {cm : ContextMethodId} {pair : InContext .method}
    (hm : s.elements.methods.get? cm = some pair) :
    Advancing p sel promised (heapContext cm) s fun c t => t.elements.Knows p.toCatalog sel.limit c := fun hs => by
  refine advancing_settle ?_ hs
  rw [hs.selector]
  exact Selector.suits_heapContext hs.elements hm

/-! ### Flows -/

end Solve

namespace Grounded

variable (h : Grounded p sel promised s)
include h

theorem object? {o : ContextObjectId} (ho : ∃ pair, s.elements.objects.get? o = some pair) :
    ∃ a, s.elements.object? o = some a ∧ p.Makes a := by
  obtain ⟨pair, ho⟩ := ho
  obtain ⟨-, a, ha⟩ := h.elements.objects o pair ho
  exact ⟨a, by simp [Elements.object?, ho, ha], h.elements.heap _ a ha⟩

/-- Whether an object passes an edge can be told. -/
theorem decides {kind : FlowKind} (cast : ∀ type, kind = .cast type → type.index < p.types.size)
    {o : ContextObjectId} (ho : ∃ pair, s.elements.objects.get? o = some pair) :
    s.decides kind o = true := by
  cases kind with
  | cast type =>
    obtain ⟨a, ha, makes⟩ := h.object? ho
    simp [Solver.decides, Elements.objectType?, ha, h.program, makes.type, cast type rfl]
  | _ => rfl

theorem addEdge {f : Flow} (source : ∃ q, s.flows.pointer? f.source = some q)
    (target : ∃ q, s.flows.pointer? f.target = some q ∧ s.Open p.toCatalog promised q)
    (cast : ∀ type, f.kind = .cast type → type.index < p.types.size) :
    Advances p sel promised s { s with flows := (s.flows.add f).2 } := by
  have nodes : (s.flows.add f).2.nodes = s.flows.nodes := FlowGraph.nodes_add
  have st : s.Later { s with flows := (s.flows.add f).2 } := by
    refine ⟨⟨.refl _, ?_, fun _ => id⟩, fun _ => id⟩
    rw [nodes]
    exact .refl _
  refine h.gain st ⟨rfl, rfl, h.elements, ?_, .inl, ?_, .add, .inl, .inl, .inl, .inl⟩
  · intro n q hq
    rw [FlowGraph.pointer?, nodes] at hq
    exact .inl hq
  · intro f' hf
    refine (FlowGraph.has_add.1 hf).imp_right ?_
    rintro rfl
    refine ⟨source.imp (st.nodes _), ?_, cast⟩
    obtain ⟨q, hq, can⟩ := target
    exact ⟨q, st.nodes _ q hq, can.later st⟩

/-- A call site can be shown. -/
theorem siteText? {site : CallSiteId} {decl : CallSite} (hd : p.callSites[site]? = some decl) :
    ∃ text, s.program.siteText? site = some text := by
  rw [h.program]
  exact h.wellFormed.complete.siteText? hd

end Grounded

namespace Solve

theorem advancing_propagate {n : NodeId} {q : Pointer} {kind : FlowKind} {objects : Objects}
    (hn : s.flows.pointer? n = some q) (hq : s.Open p.toCatalog promised q)
    (cast : ∀ type, kind = .cast type → type.index < p.types.size)
    (known : ∀ o ∈ objects, ∃ pair, s.elements.objects.get? o = some pair) :
    Advancing p sel promised (propagate n kind objects) s fun _ _ => True := by
  refine .afterGet fun hs => ?_
  rw [if_pos (List.all_eq_true.2 fun o ho => hs.decides cast (known o (HybridSet.mem_toList.1 ho)))]
  exact .set ⟨hs.uniteInto hn hq fun o ho => known o (mem_passing.1 ho).1, trivial⟩

theorem advancing_internNode {q : Pointer} (hq : s.Names p.toCatalog q) :
    Advancing p sel promised (change (·.internNode q)) s fun n t => t.flows.pointer? n = some q :=
  .change fun hs => hs.internNode hq

theorem advancing_addFlow {source target : Pointer} {kind : FlowKind}
    (hsource : s.Names p.toCatalog source) (htarget : s.Open p.toCatalog promised target)
    (cast : ∀ type, kind = .cast type → type.index < p.types.size) :
    Advancing p sel promised (addFlow source target kind) s fun _ _ => True := by
  refine .bind (advancing_internNode hsource) fun n t st hn => ?_
  refine .bind (advancing_internNode (htarget.names.kept st.toKeeps)) fun m u tu hm => ?_
  have su := st.trans tu
  refine .bind (.change (Q := fun _ v => u.Later v) fun hu => ?_) fun fresh v uv _ => ?_
  · have added := hu.addEdge (f := ⟨n, m, kind⟩) ⟨source, tu.nodes n _ hn⟩
      ⟨target, hm, htarget.later su⟩ cast
    exact ⟨added, added.toLater⟩
  split
  · refine .afterGet fun hv => ?_
    refine advancing_propagate (uv.nodes m _ hm) (htarget.later (su.trans uv)) cast
      (fun o ho => ?_) hv
    exact (hv.points n o (PendingStore.mem_all.2 (.inr ho))).2
  · exact .pure trivial

theorem advancing_addVarFlow {c d : ContextId} {v w : VarId} {kind : FlowKind}
    (hc : s.elements.Knows p.toCatalog sel.limit c) (hv : v.index < p.vars.size)
    (hw : s.Admits p.toCatalog sel.limit promised d w)
    (cast : ∀ type, kind = .cast type → type.index < p.types.size) :
    Advancing p sel promised (addVarFlow c v d w kind) s fun _ _ => True := by
  obtain ⟨m, owns, -⟩ := hw.2
  refine .bind (advancing_internVar hc hv) fun x t st hx => ?_
  refine .bind (advancing_internVar (hw.1.within st.elements) owns.lt_size) fun y u tu hy => ?_
  exact advancing_addFlow (Solver.Names.kept tu.toKeeps ⟨_, hx⟩) ⟨d, w, hy, (hw.later (st.trans tu)).2⟩ cast

theorem advancing_addObjectIn {c d : ContextId} {v : VarId} (hv : s.Admits p.toCatalog sel.limit promised c v)
    (hd : s.elements.Knows p.toCatalog sel.limit d) {o : ObjectId} (ho : ∃ a, s.elements.heap.get? o = some a) :
    Advancing p sel promised (modify (·.addObjectIn c v d o)) s fun _ _ => True :=
  .modify (fun hs => hs.addObjectIn hv hd ho) trivial

/-! ### Calls -/

theorem advancing_announce {e : Event} (he : s.Vouches p.toCatalog e) :
    Advancing p sel promised (modify (·.announce e)) s fun _ _ => True :=
  .modify (fun hs => hs.announce he) trivial

theorem advancing_warn (text : String) :
    Advancing p sel promised (modify (·.warn text)) s fun _ _ => True :=
  .modify (fun hs => hs.warn) trivial

/-- The method of a queued call is alive. -/
theorem advancing_queueCall {e : CallEdge} {c : ContextId} {m : MethodId}
    (he : s.Placed p.toCatalog e) (hm : s.elements.methods.get? e.callee = some ⟨c, m⟩) :
    Advancing p sel promised (modify (·.queueCall e)) s fun _ t => t.Alive none c m :=
  .modify (fun hs => hs.queueCall he)
    (.inr ⟨e.callee, hm, .inr ⟨e, Queue.mem_push.2 (.inr rfl), rfl⟩⟩)

/-- The implementation of a method is declared. -/
theorem safe_dispatch? (hs : Grounded p sel promised s) {o : ContextObjectId}
    (ho : ∃ pair, s.elements.objects.get? o = some pair) (target : MethodRef) :
    Safe (dispatch? o target) s fun callee t => s = t ∧
      ∀ m, callee = some m → ∃ d, p.methods[m]? = some d := by
  obtain ⟨a, ha, makes⟩ := hs.object? ho
  obtain ⟨type, ht⟩ := Table.exists_getElem? makes.type
  refine .bind (safe_objectAt ha) ?_
  rintro _ _ ⟨rfl, rfl⟩
  refine .bind safe_catalog ?_
  rintro _ _ ⟨rfl, rfl⟩
  refine .bind (safe_known (by rw [Solver.catalog, hs.program]; exact ht)) ?_
  rintro _ _ ⟨rfl, -⟩
  refine .bind safe_get ?_
  rintro _ _ ⟨rfl, rfl⟩
  refine .pure ⟨rfl, fun m hm => ?_⟩
  rw [hs.program] at hm
  exact hs.wellFormed.dispatch hm

/-- An object may be bound to the receiver of a method that is about to be called. -/
theorem advancing_bindReceiver {c : ContextId} {m : MethodId} (hc : s.elements.Knows p.toCatalog sel.limit c)
    (hm : ∃ d, p.methods[m]? = some d) {o : ContextObjectId}
    (ho : ∃ pair, s.elements.objects.get? o = some pair) :
    Advancing p sel (some (c, m)) (bindReceiver c m o) s fun _ _ => True := fun hs => by
  obtain ⟨d, hd⟩ := hm
  refine Advancing.after (safe_methodDecl (d := d) (by rw [hs.program]; exact hd)) ?_ hs
  split
  next this hthis =>
    have owns := (hs.wellFormed.owned.methods m d hd).receiver this hthis
    refine .bind (advancing_internVar hc owns.lt_size) fun x t st hx => ?_
    refine .modify (fun ht => ht.addVarObject ?_ (ho.imp (st.elements.objects o))) trivial
    exact ⟨c, this, hx, m, owns, .inl rfl⟩
  next => exact .pure trivial

end Solve

end PointsTo
