import PointsTo.Proofs.Safety.Loading

/-!
States in which every id names something, and objects flow into methods only that are reached or are
about to be. Every change to such a state is specified by what it needs.
-/
namespace PointsTo

open Facts

/-- The descriptions of the objects that are made up. -/
def mockDescriptions : List String :=
  [Solve.stringConcatenation, Lambda.functionValue, Lambda.constructedObject, Taint.taintedValue]

namespace Catalog

/-- Where the objects of a program come from. -/
def Locates (p : Catalog) : Origin → Prop
  | .allocation m i => ∃ d, p.methods[m]? = some d ∧ i < d.body.size
  | .mock description site => description ∈ mockDescriptions ∧ site.index < p.callSites.size

/-- The objects that an analysis may make of a program. -/
structure Makes (p : Catalog) (a : AbstractObject) : Prop where
  origin : p.Locates a.origin
  type : a.type.index < p.types.size
  container : ∀ m, a.container = some m → m.index < p.methods.size

end Catalog

namespace Elements

/-- The element of a context names something. -/
def Reads (e : Elements) (p : Catalog) : ContextElement → Prop
  | .callSite s => s.index < p.callSites.size
  | .object o => ∃ a, e.heap.get? o = some a
  | .type t => t.index < p.types.size

/-- The contexts that come up under a limit. -/
structure Regular (e : Elements) (p : Catalog) (limit : Nat) (c : Context) : Prop where
  length : c.length ≤ limit
  reads : ∀ x ∈ c, e.Reads p x

/-- The id of a context names one that comes up. There may be other contexts, left behind by runs that
share the table. -/
def Knows (e : Elements) (p : Catalog) (limit : Nat) (c : ContextId) : Prop :=
  ∃ l, e.contexts.get? c = some l ∧ e.Regular p limit l

/-- Every id names something. -/
structure Ranged (e : Elements) (p : Catalog) (limit : Nat) : Prop where
  heap : ∀ o a, e.heap.get? o = some a → p.Makes a
  vars : ∀ x pair, e.vars.get? x = some pair →
    e.Knows p limit pair.context ∧ pair.entity.index < p.vars.size
  objects : ∀ o pair, e.objects.get? o = some pair →
    e.Knows p limit pair.context ∧ ∃ a, e.heap.get? pair.entity = some a
  methods : ∀ m pair, e.methods.get? m = some pair →
    e.Knows p limit pair.context ∧ pair.entity.index < p.methods.size
  sites : ∀ s pair, e.sites.get? s = some pair →
    e.Knows p limit pair.context ∧ pair.entity.index < p.callSites.size

variable {e f : Elements} {p : Catalog} {limit : Nat} {c : ContextId}

theorem Reads.within {x : ContextElement} (h : e.Reads p x) (w : e.Within f) : f.Reads p x := by
  cases x with
  | object o => exact h.imp (w.heap o)
  | _ => exact h

theorem Regular.within {l : Context} (h : e.Regular p limit l) (w : e.Within f) :
    f.Regular p limit l := ⟨h.length, fun x hx => (h.reads x hx).within w⟩

theorem Knows.within (h : e.Knows p limit c) (w : e.Within f) : f.Knows p limit c :=
  h.imp fun _ h => ⟨w.contexts c _ h.1, h.2.within w⟩

theorem Knows.get? (h : e.Knows p limit c) : e.contexts.get? c = some (e.context c) := by
  obtain ⟨l, hl, -⟩ := h
  rw [context, ContextTable.context, hl]
  rfl

theorem Knows.regular (h : e.Knows p limit c) : e.Regular p limit (e.context c) := by
  have context := h.get?
  obtain ⟨l, hl, regular⟩ := h
  cases hl.symm.trans context
  exact regular

theorem knows_emptyId : e.Knows p limit ContextTable.emptyId :=
  ⟨[], ContextTable.get?_emptyId, Nat.zero_le _, fun _ h => absurd h List.not_mem_nil⟩

namespace Ranged

variable (h : e.Ranged p limit)
include h

/-- It is enough that each entry is an old one, or names something. -/
theorem of_new (w : e.Within f)
    (heap : ∀ o a, f.heap.get? o = some a → e.heap.get? o = some a ∨ p.Makes a)
    (vars : ∀ x pair, f.vars.get? x = some pair → e.vars.get? x = some pair ∨
      f.Knows p limit pair.context ∧ pair.entity.index < p.vars.size)
    (objects : ∀ o pair, f.objects.get? o = some pair → e.objects.get? o = some pair ∨
      f.Knows p limit pair.context ∧ ∃ a, f.heap.get? pair.entity = some a)
    (methods : ∀ m pair, f.methods.get? m = some pair → e.methods.get? m = some pair ∨
      f.Knows p limit pair.context ∧ pair.entity.index < p.methods.size)
    (sites : ∀ s pair, f.sites.get? s = some pair → e.sites.get? s = some pair ∨
      f.Knows p limit pair.context ∧ pair.entity.index < p.callSites.size) : f.Ranged p limit where
  heap o a ha := (heap o a ha).elim (h.heap o a) id
  vars x pair hx := (vars x pair hx).elim
    (fun old => (h.vars x pair old).imp_left (·.within w)) id
  objects o pair ho := (objects o pair ho).elim
    (fun old => (h.objects o pair old).imp (·.within w) (.imp fun a => w.heap _ a)) id
  methods m pair hm := (methods m pair hm).elim
    (fun old => (h.methods m pair old).imp_left (·.within w)) id
  sites s pair hs := (sites s pair hs).elim
    (fun old => (h.sites s pair old).imp_left (·.within w)) id

theorem internContext {l : Context} : (e.internContext l).2.Ranged p limit :=
  h.of_new within_internContext (fun _ _ => .inl) (fun _ _ => .inl) (fun _ _ => .inl)
    (fun _ _ => .inl) fun _ _ => .inl

theorem internHeap {a : AbstractObject} (makes : p.Makes a) :
    { e with heap := (e.heap.intern a).2 }.Ranged p limit := by
  refine h.of_new { Within.refl e with heap := Table.within_intern } (fun o b hb => ?_)
    (fun _ _ => .inl) (fun _ _ => .inl) (fun _ _ => .inl) fun _ _ => .inl
  refine ((Table.intern_spec e.heap a).2.2 o b hb).imp_right ?_
  rintro ⟨-, rfl⟩
  exact makes

variable (hc : e.Knows p limit c)
include hc

theorem internVar {v : VarId} (hv : v.index < p.vars.size) : (e.internVar c v).2.Ranged p limit := by
  refine h.of_new within_internVar (fun _ _ => .inl) (fun x pair hx => ?_) (fun _ _ => .inl)
    (fun _ _ => .inl) fun _ _ => .inl
  refine (CopyTable.get?_of_intern hx).imp_right ?_
  rintro rfl
  exact ⟨hc.within within_internVar, hv⟩

theorem internObject {o : ObjectId} (ho : ∃ a, e.heap.get? o = some a) :
    (e.internObject c o).2.Ranged p limit := by
  refine h.of_new within_internObject (fun _ _ => .inl) (fun _ _ => .inl) (fun x pair hx => ?_)
    (fun _ _ => .inl) fun _ _ => .inl
  refine (CopyTable.get?_of_intern hx).imp_right ?_
  rintro rfl
  exact ⟨hc.within within_internObject, ho⟩

theorem internMethod {m : MethodId} (hm : m.index < p.methods.size) :
    (e.internMethod c m).2.Ranged p limit := by
  refine h.of_new within_internMethod (fun _ _ => .inl) (fun _ _ => .inl) (fun _ _ => .inl)
    (fun x pair hx => ?_) fun _ _ => .inl
  refine (CopyTable.get?_of_intern hx).imp_right ?_
  rintro rfl
  exact ⟨hc.within within_internMethod, hm⟩

theorem internSite {s : CallSiteId} (hs : s.index < p.callSites.size) :
    (e.internSite c s).2.Ranged p limit := by
  refine h.of_new within_internSite (fun _ _ => .inl) (fun _ _ => .inl) (fun _ _ => .inl)
    (fun _ _ => .inl) fun x pair hx => ?_
  refine (CopyTable.get?_of_intern hx).imp_right ?_
  rintro rfl
  exact ⟨hc.within within_internSite, hs⟩

end Ranged
end Elements

namespace Solver

/-! ### Methods that are reached, or about to be -/

/-- A method is reached in a context. -/
def Reached (s : Solver) (c : ContextId) (m : MethodId) : Prop :=
  ∃ cm, s.elements.methods.get? cm = some ⟨c, m⟩ ∧ s.calls.Reaches cm

/-- A method is reached in a context, or a call of it is promised or queued. -/
def Alive (s : Solver) (promised : Option (ContextId × MethodId)) (c : ContextId) (m : MethodId) :
    Prop :=
  promised = some (c, m) ∨ ∃ cm, s.elements.methods.get? cm = some ⟨c, m⟩ ∧
    (s.calls.Reaches cm ∨ ∃ e ∈ s.callQueue.toList, e.callee = cm)

/-- The method of a variable is alive. -/
def Hosts (s : Solver) (p : Catalog) (promised : Option (ContextId × MethodId)) (c : ContextId)
    (v : VarId) : Prop := ∃ m, p.Owns m v ∧ s.Alive promised c m

/-- Objects may flow into a variable. -/
def Admits (s : Solver) (p : Catalog) (limit : Nat) (promised : Option (ContextId × MethodId))
    (c : ContextId) (v : VarId) : Prop :=
  s.elements.Knows p limit c ∧ s.Hosts p promised c v

/-- What a pointer is about exists. -/
def Names (s : Solver) (p : Catalog) : Pointer → Prop
  | .var x => ∃ pair, s.elements.vars.get? x = some pair
  | .field o f => (∃ pair, s.elements.objects.get? o = some pair) ∧ f.index < p.fields.size
  | .array o => ∃ pair, s.elements.objects.get? o = some pair
  | .static f => f.index < p.fields.size

/-- Objects may flow into a pointer. -/
def Open (s : Solver) (p : Catalog) (promised : Option (ContextId × MethodId)) : Pointer → Prop
  | .var x => ∃ c v, s.elements.vars.get? x = some ⟨c, v⟩ ∧ s.Hosts p promised c v
  | q => s.Names p q

/-- The ends of a call exist, and the method of its call site is reached. -/
structure Placed (s : Solver) (p : Catalog) (e : CallEdge) : Prop where
  site : ∃ c site decl, s.elements.sites.get? e.site = some ⟨c, site⟩ ∧
    p.callSites[site]? = some decl ∧ s.Reached c decl.container
  callee : ∃ pair, s.elements.methods.get? e.callee = some pair
  origin : ∀ tag origin, e.kind = .extension tag origin →
    ∃ pair, s.elements.sites.get? origin = some pair

/-- A call has been recorded. -/
structure Settled (s : Solver) (p : Catalog) (e : CallEdge) : Prop extends s.Placed p e where
  reached : s.calls.Reaches e.callee

/-- What an event is about exists, and its method is reached. -/
def Vouches (s : Solver) (p : Catalog) : Event → Prop
  | .method m => m.index < p.methods.size
  | .contextMethod cm => (∃ pair, s.elements.methods.get? cm = some pair) ∧ s.calls.Reaches cm
  | .call e => s.Settled p e
  | .unresolved receiver c site =>
    (∃ decl, p.callSites[site]? = some decl ∧ s.Reached c decl.container) ∧
      ∀ o, receiver = some o → ∃ pair, s.elements.objects.get? o = some pair
  | .objects x delta =>
    (∃ c v m, s.elements.vars.get? x = some ⟨c, v⟩ ∧ p.Owns m v ∧ s.Reached c m) ∧
      ∀ o ∈ delta, ∃ pair, s.elements.objects.get? o = some pair

/-! ### Later states -/

/-- What stays for good: ids go on to name what they name, and methods stay reached. -/
structure Keeps (s t : Solver) : Prop where
  elements : s.elements.Within t.elements
  nodes : s.flows.nodes.Within t.flows.nodes
  reached : ∀ cm, s.calls.Reaches cm → t.calls.Reaches cm

/-- Besides, queued calls stay queued during a piece of work. -/
structure Later (s t : Solver) : Prop extends s.Keeps t where
  queued : ∀ e ∈ s.callQueue.toList, e ∈ t.callQueue.toList

theorem Keeps.refl (s : Solver) : s.Keeps s := ⟨.refl _, .refl _, fun _ => id⟩

theorem Keeps.trans {s t u : Solver} (st : s.Keeps t) (tu : t.Keeps u) : s.Keeps u where
  elements := st.elements.trans tu.elements
  nodes := st.nodes.trans tu.nodes
  reached cm h := tu.reached cm (st.reached cm h)

theorem Later.refl (s : Solver) : s.Later s := ⟨.refl s, fun _ => id⟩

theorem Later.trans {s t u : Solver} (st : s.Later t) (tu : t.Later u) : s.Later u :=
  ⟨st.toKeeps.trans tu.toKeeps, fun e h => tu.queued e (st.queued e h)⟩

theorem Extends.later {s t : Solver} (h : s.Extends t) : s.Later t :=
  ⟨⟨h.elements, h.nodes, fun _ => h.reaches⟩, fun _ he => h.queued.subset he⟩

section Lasting

variable {s t : Solver} {p : Catalog} {promised promised' : Option (ContextId × MethodId)}
  {c : ContextId} {m : MethodId}

section

variable (st : s.Keeps t)
include st

theorem Reached.kept (h : s.Reached c m) : t.Reached c m :=
  h.imp fun cm h => ⟨st.elements.methods cm _ h.1, st.reached cm h.2⟩

theorem Names.kept {q : Pointer} (h : s.Names p q) : t.Names p q := by
  cases q with
  | var x => exact h.imp (st.elements.vars x)
  | field o f => exact h.imp_left (.imp (st.elements.objects o))
  | array o => exact h.imp (st.elements.objects o)
  | static f => exact h

theorem Placed.kept {e : CallEdge} (h : s.Placed p e) : t.Placed p e where
  site := by
    obtain ⟨c, site, decl, hs, hd, reached⟩ := h.site
    exact ⟨c, site, decl, st.elements.sites _ _ hs, hd, reached.kept st⟩
  callee := h.callee.imp (st.elements.methods _)
  origin tag origin hk := (h.origin tag origin hk).imp (st.elements.sites _)

theorem Settled.kept {e : CallEdge} (h : s.Settled p e) : t.Settled p e :=
  ⟨h.toPlaced.kept st, st.reached _ h.reached⟩

theorem Vouches.kept {e : Event} (h : s.Vouches p e) : t.Vouches p e := by
  cases e with
  | method => exact h
  | contextMethod cm => exact h.imp (.imp (st.elements.methods cm)) (st.reached cm)
  | call e => exact Settled.kept st h
  | unresolved receiver c site =>
    refine ⟨h.1.imp fun decl h => h.imp_right (·.kept st), fun o ho => ?_⟩
    exact (h.2 o ho).imp (st.elements.objects o)
  | objects x delta =>
    obtain ⟨⟨c, v, m, hx, owns, reached⟩, known⟩ := h
    exact ⟨⟨c, v, m, st.elements.vars x _ hx, owns, reached.kept st⟩,
      fun o ho => (known o ho).imp (st.elements.objects o)⟩

/-- Pointers stay open when what is alive stays so. -/
theorem Open.kept (alive : ∀ c m, s.Alive promised c m → t.Alive promised' c m) {q : Pointer}
    (h : s.Open p promised q) : t.Open p promised' q := by
  cases q with
  | var x =>
    obtain ⟨c, v, hx, m, owns, hm⟩ := h
    exact ⟨c, v, st.elements.vars x _ hx, m, owns, alive c m hm⟩
  | field o f => exact Names.kept (p := p) (q := .field o f) st h
  | array o => exact Names.kept (p := p) (q := .array o) st h
  | static f => exact h

end

variable (st : s.Later t)
include st

theorem Alive.later (h : s.Alive promised c m) : t.Alive promised c m :=
  h.imp_right fun ⟨cm, hm, alive⟩ => ⟨cm, st.elements.methods cm _ hm,
    alive.imp (st.reached cm) fun ⟨e, he, same⟩ => ⟨e, st.queued e he, same⟩⟩

theorem Admits.later {limit : Nat} {v : VarId} (h : s.Admits p limit promised c v) :
    t.Admits p limit promised c v :=
  ⟨h.1.within st.elements, h.2.imp fun _ h => h.imp_right (·.later st)⟩

theorem Open.later {q : Pointer} (h : s.Open p promised q) : t.Open p promised q :=
  h.kept st.toKeeps fun _ _ => .later st

end Lasting

theorem Open.names {s : Solver} {p : Catalog} {promised : Option (ContextId × MethodId)}
    {q : Pointer} (h : s.Open p promised q) : s.Names p q := by
  cases q with
  | var x =>
    obtain ⟨c, v, hx, -⟩ := h
    exact ⟨_, hx⟩
  | _ => exact h

theorem Reached.alive {s : Solver} {promised : Option (ContextId × MethodId)} {c : ContextId}
    {m : MethodId} (h : s.Reached c m) : s.Alive promised c m :=
  .inr (h.imp fun _ h => h.imp_right .inl)

end Solver

/-! ### The invariant -/

/-- Every id names something, objects flow into methods only that are reached or about to be, and
calls come from methods that are reached. One call more may be promised than is queued. -/
structure Grounded (p : Program) (sel : Selector) (promised : Option (ContextId × MethodId))
    (s : Solver) : Prop where
  wellFormed : p.WellFormed
  program : s.program = p
  selector : s.selector = sel
  elements : s.elements.Ranged p.toCatalog sel.limit
  nodes : ∀ n q, s.flows.pointer? n = some q → s.Names p.toCatalog q
  points : ∀ n o, o ∈ s.points.all n →
    (∃ q, s.flows.pointer? n = some q ∧ s.Open p.toCatalog promised q) ∧
      ∃ pair, s.elements.objects.get? o = some pair
  flows : ∀ f, s.flows.Has f → (∃ q, s.flows.pointer? f.source = some q) ∧
    (∃ q, s.flows.pointer? f.target = some q ∧ s.Open p.toCatalog promised q) ∧
      ∀ type, f.kind = .cast type → type.index < p.types.size
  filed : s.flows.Filed
  queued : ∀ e ∈ s.callQueue.toList, s.Placed p.toCatalog e
  recorded : ∀ call, s.calls.Records call → s.Settled p.toCatalog call.edge
  reached : ∀ cm, s.calls.Reaches cm → ∃ pair, s.elements.methods.get? cm = some pair
  announced : ∀ e ∈ s.events.toList, s.Vouches p.toCatalog e

/-- A state to which ids are added that name something. -/
structure Advances (p : Program) (sel : Selector) (promised : Option (ContextId × MethodId))
    (s t : Solver) : Prop extends s.Later t where
  grounded : Grounded p sel promised t

namespace Advances

variable {p : Program} {sel : Selector} {promised : Option (ContextId × MethodId)}
  {s t u : Solver}

theorem refl (h : Grounded p sel promised s) : Advances p sel promised s s := ⟨.refl s, h⟩

theorem trans (st : Advances p sel promised s t) (tu : Advances p sel promised t u) :
    Advances p sel promised s u := ⟨st.toLater.trans tu.toLater, tu.grounded⟩

end Advances

end PointsTo
