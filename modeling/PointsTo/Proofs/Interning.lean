import PointsTo.Proofs.Answers

/-!
Ids and what they stand for. The tables of elements answer requests for ids; beside them runs a list of
all requests with their answers, and the tables never tell anything but what that list says.
-/
namespace PointsTo

namespace Table

variable {ε κ : Type} [Coded κ] {kind : Entity} {key : ε → κ} {t : Table kind key} {e : ε}
  {i : Id kind}

/-- Interning fills in the entry of the id that it gives, if there is none. -/
theorem get?_intern_eq : (t.intern e).2.get? i =
    (t.get? i).or (if (t.intern e).1 = i then some e else none) := by
  obtain ⟨j, found, same⟩ | ⟨-, answer, after⟩ := t.intern_cases e
  · rw [same]
    obtain ⟨a, ha, -⟩ := find?_eq_some_iff.1 found
    by_cases here : j = i
    · simp [← here, ha]
    · simp [here]
  · ext a
    rw [after, answer]
    by_cases here : ⟨t.size⟩ = i
    · have new : t.get? i = none := by
        rw [← Option.not_isSome_iff_eq_none, isSome_get?_iff, ← here]
        exact Nat.lt_irrefl t.size
      simp [here, new]
    · simp [here, Ne.symm here]

theorem size_intern (missing : t.find? (key e) = none) :
    (t.intern e).1 = ⟨t.size⟩ ∧ (t.intern e).2.size = t.size + 1 := by
  unfold intern
  split
  next j found =>
    rw [find?, found] at missing
    cases missing
  next => exact ⟨rfl, Array.size_push e⟩

end Table

namespace CopyTable

variable {kind copy : Entity} {t : CopyTable kind copy} {c : ContextId} {e : Id kind} {i : Id copy}

theorem get?_intern_eq : (t.intern c e).2.get? i =
    (t.get? i).or (if (t.intern c e).1 = i then some ⟨c, e⟩ else none) := by
  rw [get?, (t.intern_eq c e).1, (t.intern_eq c e).2]
  exact Table.get?_intern_eq

theorem size_intern (missing : t.find? c e = none) :
    (t.intern c e).1 = ⟨t.size⟩ ∧ (t.intern c e).2.size = t.size + 1 := by
  rw [size, size, (t.intern_eq c e).1, (t.intern_eq c e).2]
  exact Table.size_intern missing

/-- What a table tells of pairs and of entities, given the ids that have been issued. -/
structure Indexes (t : CopyTable kind copy) (issued : ContextId → Id kind → Id copy → Prop) :
    Prop where
  find?_iff : ∀ c e i, t.find? c e = some i ↔ issued c e i
  mem_copiesOf_iff : ∀ e i, i ∈ t.copiesOf e ↔ ∃ c, issued c e i
  ascends : ∀ e, (t.copiesOf e).Pairwise (· < ·)

theorem pairwise_copiesOf : (t.copiesOf e).Pairwise (· < ·) := by
  rw [copiesOf_eq]
  apply List.Pairwise.filter
  exact List.pairwise_map.2 List.pairwise_lt_range

theorem mem_copiesOf_iff_find? : i ∈ t.copiesOf e ↔ ∃ c, t.find? c e = some i := by
  rw [mem_copiesOf]
  constructor
  · rintro ⟨⟨c, e⟩, found, rfl⟩
    exact ⟨c, Table.find?_of_get? found⟩
  · rintro ⟨c, found⟩
    exact ⟨⟨c, e⟩, Table.get?_of_find? found, rfl⟩

theorem indexes_of_find?_iff {issued : ContextId → Id kind → Id copy → Prop}
    (find?_iff : ∀ c e i, t.find? c e = some i ↔ issued c e i) : t.Indexes issued where
  find?_iff := find?_iff
  mem_copiesOf_iff e i := mem_copiesOf_iff_find?.trans (exists_congr fun c => find?_iff c e i)
  ascends _ := pairwise_copiesOf

end CopyTable

namespace Interning

/-- The tables of elements. -/
inductive Register
  | contexts | heap | vars | objects | methods | sites
  deriving DecidableEq

/-- What the entries of a table are. -/
abbrev Register.entity : Register → Entity
  | contexts => .context
  | heap => .object
  | vars => .contextVar
  | objects => .contextObject
  | methods => .contextMethod
  | sites => .contextSite

/-- An id of any of the tables. -/
abbrev Handle := (register : Register) × Id register.entity

/-- An entry of any of the tables. -/
inductive Element
  | context (c : Context)
  | abstract (o : AbstractObject)
  | var (pair : InContext .var)
  | object (pair : InContext .object)
  | method (pair : InContext .method)
  | site (pair : InContext .callSite)

/-- What an id is asked for. -/
inductive Request
  | context (c : Context)
  | allocation (method : MethodId) (statement : Nat) (type : TypeId)
  | mock (description : String) (site : CallSiteId) (type : TypeId) (container : Option MethodId)
  | var (context : ContextId) (v : VarId)
  | object (context : ContextId) (o : ObjectId)
  | method (context : ContextId) (m : MethodId)
  | site (context : ContextId) (s : CallSiteId)

/-- What tells requests apart. The type of an allocation does not, and neither does the container of
a made-up object. -/
inductive Key
  | context (c : Context)
  | origin (identity : Origin × Option TypeId)
  | var (pair : InContext .var)
  | object (pair : InContext .object)
  | method (pair : InContext .method)
  | site (pair : InContext .callSite)

@[simp] def Element.key : Element → Key
  | context c => .context c
  | abstract o => .origin o.identity
  | var pair => .var pair
  | object pair => .object pair
  | method pair => .method pair
  | site pair => .site pair

namespace Request

def key : Request → Key
  | context c => .context c
  | allocation m statement _ => .origin (.allocation m statement, none)
  | mock description s type _ => .origin (.mock description s, some type)
  | var c v => .var ⟨c, v⟩
  | object c o => .object ⟨c, o⟩
  | method c m => .method ⟨c, m⟩
  | site c s => .site ⟨c, s⟩

/-- What is entered when the key is new. -/
def element : Request → Element
  | context c => .context c
  | allocation m statement type => .abstract ⟨.allocation m statement, type, some m⟩
  | mock description s type container => .abstract ⟨.mock description s, type, container⟩
  | var c v => .var ⟨c, v⟩
  | object c o => .object ⟨c, o⟩
  | method c m => .method ⟨c, m⟩
  | site c s => .site ⟨c, s⟩

/-- The table that the request is for. -/
def register : Request → Register
  | context _ => .contexts
  | allocation .. | mock .. => .heap
  | var .. => .vars
  | object .. => .objects
  | method .. => .methods
  | site .. => .sites

def serve (e : Elements) : Request → Handle × Elements
  | context c => let (id, e) := e.internContext c; (⟨.contexts, id⟩, e)
  | allocation m statement type => let (o, e) := e.allocate m statement type; (⟨.heap, o⟩, e)
  | mock description s type container =>
    let (o, e) := e.mock description s type container
    (⟨.heap, o⟩, e)
  | var c v => let (x, e) := e.internVar c v; (⟨.vars, x⟩, e)
  | object c o => let (x, e) := e.internObject c o; (⟨.objects, x⟩, e)
  | method c m => let (x, e) := e.internMethod c m; (⟨.methods, x⟩, e)
  | site c s => let (x, e) := e.internSite c s; (⟨.sites, x⟩, e)

/-- Only objects can be asked for in different ways. -/
theorem eq_of_key_eq {r r' : Request} (single : r.register ≠ .heap) (same : r'.key = r.key) :
    r' = r := by
  cases r <;> cases r' <;> simp_all [key, register]

theorem key_element (r : Request) : r.element.key = r.key := by cases r <;> rfl

end Request

/-- What an id stands for. -/
def get? (e : Elements) : Handle → Option Element
  | ⟨.contexts, id⟩ => (e.contexts.get? id).map .context
  | ⟨.heap, o⟩ => (e.heap.get? o).map .abstract
  | ⟨.vars, x⟩ => (e.vars.get? x).map .var
  | ⟨.objects, x⟩ => (e.objects.get? x).map .object
  | ⟨.methods, x⟩ => (e.methods.get? x).map .method
  | ⟨.sites, x⟩ => (e.sites.get? x).map .site

/-- The number of entries of a table. -/
def size (e : Elements) : Register → Nat
  | .contexts => e.contexts.size
  | .heap => e.heap.size
  | .vars => e.vars.size
  | .objects => e.objects.size
  | .methods => e.methods.size
  | .sites => e.sites.size

/-- The id that a key has. -/
def find? (e : Elements) : Key → Option Handle
  | .context c => (e.contexts.table.find? c).map (⟨.contexts, ·⟩)
  | .origin identity => (e.heap.find? identity).map (⟨.heap, ·⟩)
  | .var ⟨c, v⟩ => (e.vars.find? c v).map (⟨.vars, ·⟩)
  | .object ⟨c, o⟩ => (e.objects.find? c o).map (⟨.objects, ·⟩)
  | .method ⟨c, m⟩ => (e.methods.find? c m).map (⟨.methods, ·⟩)
  | .site ⟨c, s⟩ => (e.sites.find? c s).map (⟨.sites, ·⟩)

variable {e : Elements} {r : Request} {h : Handle} {k : Key} {g : Register}

theorem isSome_get?_iff : (get? e h).isSome ↔ h.2.index < size e h.1 := by
  obtain ⟨register, id⟩ := h
  cases register <;> exact Option.isSome_map.symm ▸ Table.isSome_get?_iff

theorem find?_eq_some_iff : find? e k = some h ↔ ∃ x, get? e h = some x ∧ x.key = k := by
  obtain ⟨register, id⟩ := h
  cases k <;> cases register <;>
    simp [find?, get?, ContextTable.get?, CopyTable.get?, CopyTable.find?, Table.find?_eq_some_iff]

/-- A key that has an id is given it again, and nothing changes. -/
theorem serve_of_find? (found : find? e r.key = some h) : r.serve e = (h, e) := by
  cases r <;> obtain ⟨id, known, rfl⟩ := Option.map_eq_some_iff.1 found
  case context =>
    simp [Request.serve, Elements.internContext, ContextTable.intern, Table.intern_of_find? known]
  case allocation m i type =>
    have again := Table.intern_of_find? (e := AbstractObject.mk (.allocation m i) type m) known
    simp [Request.serve, Elements.allocate, Heap.allocate, again]
  case mock d s type container =>
    have again := Table.intern_of_find? (e := AbstractObject.mk (.mock d s) type container) known
    simp [Request.serve, Elements.mock, Heap.mock, again]
  case var => simp [Request.serve, Elements.internVar, CopyTable.intern_of_find? known]
  case object => simp [Request.serve, Elements.internObject, CopyTable.intern_of_find? known]
  case method => simp [Request.serve, Elements.internMethod, CopyTable.intern_of_find? known]
  case site => simp [Request.serve, Elements.internSite, CopyTable.intern_of_find? known]

/-- A key that has no id is given the next number of its table. -/
theorem fst_serve_of_missing (missing : find? e r.key = none) :
    (r.serve e).1 = ⟨r.register, ⟨size e r.register⟩⟩ := by
  cases r <;> apply congrArg (Sigma.mk _) <;> replace missing := Option.map_eq_none_iff.1 missing
  case context | allocation | mock => exact (Table.size_intern missing).1
  case var | object | method | site => exact (CopyTable.size_intern missing).1

/-- Its table grows by one entry, and no other table does. -/
theorem size_serve_of_missing (missing : find? e r.key = none) (g : Register) :
    size (r.serve e).2 g = size e g + if g = r.register then 1 else 0 := by
  cases r <;> replace missing := Option.map_eq_none_iff.1 missing <;> cases g
  case context.contexts | allocation.heap | mock.heap => exact (Table.size_intern missing).2
  case var.vars | object.objects | method.methods | site.sites =>
    exact (CopyTable.size_intern missing).2
  all_goals rfl

theorem map_fills {ε : Type} {f : ε → Element} {a b : Option ε} {i j : Id g.entity} {x : ε}
    (fills : a = b.or (if i = j then some x else none)) :
    a.map f = (b.map f).or (if (⟨g, i⟩ : Handle) = ⟨g, j⟩ then some (f x) else none) := by
  rw [fills, Option.map_or]
  by_cases here : i = j <;> simp [here]

/-- A request fills in the entry of its answer, if there is none. -/
theorem get?_serve : get? (r.serve e).2 h =
    (get? e h).or (if (r.serve e).1 = h then some r.element else none) := by
  obtain ⟨register, id⟩ := h
  cases r <;> cases register
  case context.contexts | allocation.heap | mock.heap => exact map_fills Table.get?_intern_eq
  case var.vars | object.objects | method.methods | site.sites =>
    exact map_fills CopyTable.get?_intern_eq
  -- the other tables stay as they are
  all_goals
    rw [if_neg (by simp [Request.serve]), Option.or_none]
    rfl

theorem get?_serve_of_get? {x : Element} (found : get? e h = some x) :
    get? (r.serve e).2 h = some x := by
  rw [get?_serve, found]
  rfl

theorem find?_serve : find? (r.serve e).2 r.key = some (r.serve e).1 := by
  cases before : find? e r.key with
  | some h => rwa [serve_of_find? before]
  | none =>
    have new : get? e (r.serve e).1 = none := by
      rw [← Option.not_isSome_iff_eq_none, isSome_get?_iff, fst_serve_of_missing before]
      exact Nat.lt_irrefl _
    apply find?_eq_some_iff.2
    refine ⟨r.element, ?_, r.key_element⟩
    rw [get?_serve, new, if_pos rfl]
    rfl

/-- All requests with their answers, the earliest first, and the elements that there are then. The
empty context is asked for when the tables are set up. -/
structure Ledger where
  answers : List (Request × Handle) := [(.context [], ⟨.contexts, ContextTable.emptyId⟩)]
  elements : Elements := {}

namespace Ledger

def serve (l : Ledger) (r : Request) : Ledger :=
  let (h, elements) := r.serve l.elements
  ⟨l.answers ++ [(r, h)], elements⟩

def serveAll (l : Ledger) (requests : List Request) : Ledger := requests.foldl serve l

variable {l : Ledger}

/-- The tables tell what the list does. -/
structure Exact (l : Ledger) : Prop where
  get?_eq : ∀ h, get? l.elements h = (l.answers.find? fun a => a.2 = h).map fun a => a.1.element
  find?_eq : ∀ a ∈ l.answers, find? l.elements a.1.key = some a.2

theorem exact_empty : ({} : Ledger).Exact where
  get?_eq := by
    rintro ⟨register, id⟩
    cases register
    case contexts =>
      obtain ⟨index⟩ := id
      cases index <;> rfl
    all_goals rfl
  find?_eq a mem := by
    rw [List.mem_singleton.1 mem]
    rfl

theorem Exact.serve (exact_l : l.Exact) : (l.serve r).Exact where
  get?_eq h := by
    change get? (r.serve l.elements).2 h = _
    rw [get?_serve, exact_l.get?_eq, Ledger.serve, List.find?_append, Option.map_or]
    congr 1
    by_cases here : (r.serve l.elements).1 = h <;> simp [here]
  find?_eq a mem := by
    obtain old | new := List.mem_append.1 mem
    · obtain ⟨x, found, key⟩ := find?_eq_some_iff.1 (exact_l.find?_eq a old)
      exact find?_eq_some_iff.2 ⟨x, get?_serve_of_get? found, key⟩
    · rw [List.mem_singleton.1 new]
      exact find?_serve

theorem Exact.serveAll (exact_l : l.Exact) (requests : List Request) :
    (l.serveAll requests).Exact := by
  induction requests generalizing l with
  | nil => exact exact_l
  | cons r requests ih => exact ih exact_l.serve

theorem get?_serveAll {x : Element} (found : get? l.elements h = some x)
    (requests : List Request) : get? (l.serveAll requests).elements h = some x := by
  induction requests generalizing l with
  | nil => exact found
  | cons r requests ih => exact ih (get?_serve_of_get? found)

/-- What can be relied on after the requests so far. -/
structure Canonical (l : Ledger) : Prop where
  /-- Two requests are given the same id exactly when their keys are the same. -/
  same_iff : ∀ a ∈ l.answers, ∀ b ∈ l.answers, a.2 = b.2 ↔ a.1.key = b.1.key
  /-- An id stands for what it was first given for. -/
  first : ∀ h, get? l.elements h = (l.answers.find? fun a => a.2 = h).map fun a => a.1.element
  /-- It will do so whatever else is asked for. -/
  kept : ∀ h x requests, get? l.elements h = some x →
    get? (l.serveAll requests).elements h = some x
  /-- The ids of a table are the numbers below its size. -/
  dense : ∀ h, (∃ a ∈ l.answers, a.2 = h) ↔ h.2.index < size l.elements h.1
  /-- A new key is given the next number of its table, and no other table grows. -/
  fresh : ∀ r : Request, (∀ a ∈ l.answers, a.1.key ≠ r.key) →
    (r.serve l.elements).1 = ⟨r.register, ⟨size l.elements r.register⟩⟩ ∧
      ∀ g, size (r.serve l.elements).2 g = size l.elements g + if g = r.register then 1 else 0
  /-- A key that is asked for again is answered as before, and nothing changes. -/
  again : ∀ a ∈ l.answers, ∀ r : Request, r.key = a.1.key → r.serve l.elements = (a.2, l.elements)
  vars : l.elements.vars.Indexes fun c v x => (.var c v, ⟨.vars, x⟩) ∈ l.answers
  methods : l.elements.methods.Indexes fun c m x => (.method c m, ⟨.methods, x⟩) ∈ l.answers
  sites : l.elements.sites.Indexes fun c s x => (.site c s, ⟨.sites, x⟩) ∈ l.answers
  empty : l.elements.contexts.get? ContextTable.emptyId = some []

theorem Exact.find?_eq_some_iff (exact_l : l.Exact) :
    find? l.elements k = some h ↔ ∃ a ∈ l.answers, a.1.key = k ∧ a.2 = h := by
  constructor
  · rw [Interning.find?_eq_some_iff, exact_l.get?_eq]
    rintro ⟨x, found, rfl⟩
    obtain ⟨a, first, rfl⟩ := Option.map_eq_some_iff.1 found
    refine ⟨a, List.mem_of_find?_eq_some first, a.1.key_element.symm, ?_⟩
    simpa using List.find?_some first
  · rintro ⟨a, mem, rfl, rfl⟩
    exact exact_l.find?_eq a mem

theorem Exact.find?_eq_some_iff_mem (exact_l : l.Exact) (single : r.register ≠ .heap) :
    find? l.elements r.key = some h ↔ (r, h) ∈ l.answers := by
  rw [exact_l.find?_eq_some_iff]
  constructor
  · rintro ⟨⟨r', h⟩, mem, same, rfl⟩
    rwa [← Request.eq_of_key_eq single same]
  · exact fun mem => ⟨_, mem, rfl, rfl⟩

theorem Exact.canonical (exact_l : l.Exact) : l.Canonical where
  same_iff a ha b hb := by
    have found := exact_l.find?_eq a ha
    have found' := exact_l.find?_eq b hb
    constructor
    · intro same
      obtain ⟨x, hx, key⟩ := Interning.find?_eq_some_iff.1 found
      obtain ⟨y, hy, key'⟩ := Interning.find?_eq_some_iff.1 found'
      rw [same] at hx
      cases hx.symm.trans hy
      exact key.symm.trans key'
    · intro same
      rw [same] at found
      exact Option.some.inj (found.symm.trans found')
  first := exact_l.get?_eq
  kept h x requests found := get?_serveAll found requests
  dense h := by
    rw [← isSome_get?_iff, exact_l.get?_eq, Option.isSome_map, List.find?_isSome]
    simp only [decide_eq_true_iff]
  fresh r new := by
    have missing : find? l.elements r.key = none := by
      apply Option.eq_none_iff_forall_ne_some.2
      intro h found
      obtain ⟨a, mem, key, -⟩ := exact_l.find?_eq_some_iff.1 found
      exact new a mem key
    exact ⟨fst_serve_of_missing missing, size_serve_of_missing missing⟩
  again a mem r same := by
    apply serve_of_find?
    rw [same]
    exact exact_l.find?_eq a mem
  vars := CopyTable.indexes_of_find?_iff fun c v x => by
    rw [← exact_l.find?_eq_some_iff_mem (r := .var c v) nofun]
    simp [find?, Request.key]
  methods := CopyTable.indexes_of_find?_iff fun c m x => by
    rw [← exact_l.find?_eq_some_iff_mem (r := .method c m) nofun]
    simp [find?, Request.key]
  sites := CopyTable.indexes_of_find?_iff fun c s x => by
    rw [← exact_l.find?_eq_some_iff_mem (r := .site c s) nofun]
    simp [find?, Request.key]
  empty := l.elements.contexts.first_eq

end Ledger

/-- Ids are canonical, after any history of requests for contexts, objects and entities in contexts.
Two requests are given the same id exactly when their keys are the same: the contents of the context,
the method and the statement of an allocation, the description, the site and the type of a made-up
object, or the context and the entity. Ids are given in the order of their numbers, a request for a key
that has one changes nothing, and an id stands for what it was given for at first, type and container
included, forever. Pairs are found exactly when they have been asked for, the ids of an entity are
listed in the order in which they were given, and the first context is the empty one. -/
theorem interning_canonical (history : List Request) :
    (({} : Ledger).serveAll history).Canonical :=
  (Ledger.exact_empty.serveAll history).canonical

/-- The type that a second request for an allocation names is of no account. -/
example : (({} : Ledger).serveAll [.allocation ⟨0⟩ 0 ⟨0⟩, .allocation ⟨0⟩ 0 ⟨1⟩]).answers.map
    Prod.snd = [⟨.contexts, ⟨0⟩⟩, ⟨.heap, ⟨0⟩⟩, ⟨.heap, ⟨0⟩⟩] := by
  decide

end Interning
end PointsTo
