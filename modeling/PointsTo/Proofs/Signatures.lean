import PointsTo.Proofs.Construction.Accepting
import PointsTo.Proofs.Texts

/-!
Signatures as text. A signature is read by cutting the text at the first place that will do, and the
blanks around the pieces are dropped afterwards. What has been read is written in one way only, and it
is found again in what is written, unless nothing but blanks stood in the place of the owner or of the
name. Where names are free of blanks and of punctuation, the signature of a method tells its reference.
-/
namespace PointsTo

open Text

namespace Signature

variable {text : String} {s : Signature}

/-! ### Reading -/

/-- The pieces that a written signature is cut into. -/
structure Cuts where
  owner : List Char
  result : List Char
  name : List Char
  params : List Char

/-- The owner ends at the first colon with a space behind it, the result at the first space after that,
and the name at the first parenthesis. -/
structure Cuts.Of (c : Cuts) (text : String) : Prop where
  whole : ∃ rest, trim text.toList = '<' :: (c.owner ++ ':' :: ' ' :: rest ++ ['>']) ∧
    trim rest = c.result ++ ' ' :: (c.name ++ '(' :: (c.params ++ [')']))
  owner : ¬ [':', ' '] <:+: c.owner
  result : ' ' ∉ c.result
  name : '(' ∉ c.name

/-- What the pieces stand for, the blanks around them being dropped. -/
def Cuts.signature (c : Cuts) : Signature where
  owner := String.ofList (trim c.owner)
  result := if c.result = "void".toList then none else some (String.ofList c.result)
  name := String.ofList (trim c.name)
  params := paramList c.params

/-- A text is a signature when it can be cut into pieces, and neither the piece of the owner nor that
of the name is empty. -/
theorem read?_eq_some_iff : read? text = some s ↔
    ∃ c : Cuts, c.Of text ∧ c.owner ≠ [] ∧ c.name ≠ [] ∧ c.signature = s := by
  simp only [read?, Option.bind_eq_bind, Option.bind_eq_some_iff, Prod.exists,
    after?_eq_some_iff, before?_eq_some_iff, cut?_pair (show ':' ≠ ' ' by decide), cut?_singleton]
  constructor
  · rintro ⟨_, opened, _, rfl, owner, rest, ⟨rfl, howner⟩, result, _, ⟨hrest, hresult⟩, name, _,
      ⟨rfl, hname⟩, params, rfl, h⟩
    split at h
    next => cases h
    next filled =>
      cases h
      rw [Bool.or_eq_true, not_or, List.isEmpty_iff, List.isEmpty_iff] at filled
      refine ⟨⟨owner, result, name, params⟩, ⟨⟨rest, ?_, hrest⟩, howner, hresult, hname⟩, filled.1,
        filled.2, rfl⟩
      rw [opened]
      rfl
  · rintro ⟨⟨owner, result, name, params⟩, ⟨⟨rest, opened, hrest⟩, howner, hresult, hname⟩, ho, hn,
      rfl⟩
    refine ⟨_, opened, _, rfl, owner, rest, ⟨rfl, howner⟩, result, _, ⟨hrest, hresult⟩, name, _,
      ⟨rfl, hname⟩, params, rfl, ?_⟩
    rw [if_neg (by simpa using ⟨ho, hn⟩)]
    rfl

theorem read_eq_ok_iff : read text = .ok s ↔ read? text = some s := by
  unfold read
  split
  next found h => simp [h, pure, Except.pure]
  next h => simp [h, throw, throwThe, MonadExceptOf.throw]

/-- A text can be cut in one way only. -/
theorem Cuts.Of.unique {c d : Cuts} (hc : c.Of text) (hd : d.Of text) : c = d := by
  obtain ⟨⟨rest, opened, behind⟩, howner, hresult, hname⟩ := hc
  obtain ⟨⟨rest', opened', behind'⟩, howner', hresult', hname'⟩ := hd
  have ends := List.append_cancel_right (List.cons.inj (opened.symm.trans opened')).2
  have same {sep l left right left' right' : List Char} (h : cut? sep l = some (left, right))
      (h' : cut? sep l = some (left', right')) : left = left' ∧ right = right' :=
    Prod.mk.inj (Option.some.inj (h.symm.trans h'))
  obtain ⟨owner, rfl⟩ := same ((cut?_pair (by decide)).2 ⟨rfl, howner⟩)
    ((cut?_pair (by decide)).2 ⟨ends, howner'⟩)
  obtain ⟨result, after⟩ := same (cut?_singleton.2 ⟨behind, hresult⟩)
    (cut?_singleton.2 ⟨behind', hresult'⟩)
  obtain ⟨name, params⟩ := same (cut?_singleton.2 ⟨rfl, hname⟩) (cut?_singleton.2 ⟨after, hname'⟩)
  cases c
  cases d
  simp_all

/-! ### Normal forms -/

/-- What holds of every signature that has been read. -/
structure Normal (s : Signature) : Prop where
  owner : Bare s.owner.toList
  owner_cut : ¬ [':', ' '] <:+: s.owner.toList
  result : ∀ r, s.result = some r → r ≠ "void" ∧ ' ' ∉ r.toList ∧
    ∃ c, r.toList.head? = some c ∧ isBlank c = false
  name : Bare s.name.toList
  name_cut : '(' ∉ s.name.toList
  params : ∀ a ∈ s.params, Bare a.toList ∧ a ≠ "" ∧ ',' ∉ a.toList

theorem forall_mem_paramList {l : List Char} :
    ∀ a ∈ paramList l, Bare a.toList ∧ a ≠ "" ∧ ',' ∉ a.toList := by
  refine List.forall_mem_map.2 fun a ha => ?_
  obtain ⟨mem, filled⟩ := List.mem_filter.1 ha
  obtain ⟨piece, hp, rfl⟩ := List.mem_map.1 mem
  rw [String.toList_ofList]
  refine ⟨bare_trim piece, by simpa using filled, fun comma => ?_⟩
  exact notMem_of_mem_pieces hp ((isInfix_trim piece).mem comma)

theorem Cuts.Of.normal {c : Cuts} (h : c.Of text) : c.signature.Normal where
  owner := by
    rw [signature, String.toList_ofList]
    exact bare_trim c.owner
  owner_cut := by
    rw [signature, String.toList_ofList]
    exact fun inside => h.owner (inside.trans (isInfix_trim c.owner))
  result r found := by
    simp only [signature, Option.ite_none_left_eq_some, Option.some.injEq] at found
    obtain ⟨other, rfl⟩ := found
    obtain ⟨rest, -, behind⟩ := h.whole
    rw [String.toList_ofList]
    refine ⟨fun void => other (by rw [← void, String.toList_ofList]), h.result, ?_⟩
    have first := (bare_trim rest).first
    rw [behind] at first
    cases result : c.result with
    | nil => simpa [result, isBlank] using first ' '
    | cons d l => exact ⟨d, rfl, first d (by simp [result])⟩
  name := by
    rw [signature, String.toList_ofList]
    exact bare_trim c.name
  name_cut := by
    rw [signature, String.toList_ofList]
    exact fun inside => h.name ((isInfix_trim c.name).mem inside)
  params := forall_mem_paramList

/-! ### Reading what is written -/

/-- The pieces of a signature as it is written. -/
def cuts (s : Signature) : Cuts where
  owner := s.owner.toList
  result := (s.result.getD "void").toList
  name := s.name.toList
  params := [','].intercalate (s.params.map String.toList)

theorem toList_render : s.render.toList = '<' :: (s.cuts.owner ++ ':' :: ' ' ::
    (s.cuts.result ++ ' ' :: (s.cuts.name ++ '(' :: (s.cuts.params ++ [')']))) ++ ['>']) := by
  have plain (a : String) : toString a = a := rfl
  simp [render, cuts, plain, String.toList_append, String.toList_intercalate]

/-- Parameters that are bare, not empty and free of commas are found again between the commas. -/
theorem paramList_intercalate {params : List String}
    (h : ∀ a ∈ params, Bare a.toList ∧ a ≠ "" ∧ ',' ∉ a.toList) :
    paramList ([','].intercalate (params.map String.toList)) = params := by
  obtain rfl | ne := eq_or_ne params []
  · rfl
  have apart : ∀ a ∈ params.map String.toList, ',' ∉ a :=
    List.forall_mem_map.2 fun a ha => (h a ha).2.2
  have trimmed : (params.map String.toList).map trim = params.map String.toList := by
    rw [List.map_map]
    exact List.map_congr_left fun a ha => (h a ha).1.trim_eq
  have filled : ∀ a ∈ params.map String.toList, (!a.isEmpty) = true :=
    List.forall_mem_map.2 fun a ha => by simpa using (h a ha).2.1
  rw [paramList, pieces_intercalate (by simpa using ne) apart, trimmed, List.filter_eq_self.2 filled,
    List.map_map]
  exact (List.map_congr_left fun a _ => String.ofList_toList).trans (List.map_id params)

namespace Normal

theorem result_cuts (h : s.Normal) :
    ' ' ∉ s.cuts.result ∧ ∃ c r, s.cuts.result = c :: r ∧ isBlank c = false := by
  rw [cuts]
  cases found : s.result with
  | none => exact ⟨show ' ' ∉ "void".toList by decide, 'v', ['o', 'i', 'd'], rfl, rfl⟩
  | some r =>
    obtain ⟨-, blankless, c, head, first⟩ := h.result r found
    exact ⟨blankless, c, r.toList.tail, (List.cons_head?_tail head).symm, first⟩

/-- What is written is cut where the pieces meet. -/
theorem cuts_of_render (h : s.Normal) : s.cuts.Of s.render := by
  obtain ⟨blankless, c, r, result, first⟩ := h.result_cuts
  let rest := c :: (r ++ ' ' :: (s.cuts.name ++ '(' :: s.cuts.params) ++ [')'])
  have spelled : s.render.toList = '<' :: (s.cuts.owner ++ ':' :: ' ' :: rest ++ ['>']) := by
    rw [toList_render, result]
    simp [rest]
  refine ⟨⟨rest, ?_, ?_⟩, h.owner_cut, blankless, h.name_cut⟩
  · rw [spelled]
    exact (bare_of_ends rfl rfl).trim_eq
  · rw [result, (bare_of_ends first rfl).trim_eq]
    simp

theorem signature_cuts (h : s.Normal) : s.cuts.signature = s := by
  have result : (if s.cuts.result = "void".toList then none else some (String.ofList s.cuts.result)) =
      s.result := by
    rw [cuts]
    cases found : s.result with
    | none => rfl
    | some r =>
      rw [Option.getD_some, if_neg fun same => (h.result r found).1 (String.toList_inj.1 same),
        String.ofList_toList]
  rw [Cuts.signature, result, cuts, paramList_intercalate h.params, h.owner.trim_eq, h.name.trim_eq,
    String.ofList_toList, String.ofList_toList]

/-- A normal form is found again in the way it is written, unless its owner or its name is empty. -/
theorem read?_render_iff (h : s.Normal) : read? s.render = some s ↔ s.owner ≠ "" ∧ s.name ≠ "" := by
  have owner : s.owner ≠ "" ↔ s.cuts.owner ≠ [] := by simp [cuts]
  have name : s.name ≠ "" ↔ s.cuts.name ≠ [] := by simp [cuts]
  rw [read?_eq_some_iff, owner, name]
  constructor
  · rintro ⟨c, hc, ho, hn, -⟩
    rw [hc.unique h.cuts_of_render] at ho hn
    exact ⟨ho, hn⟩
  · rintro ⟨ho, hn⟩
    exact ⟨s.cuts, h.cuts_of_render, ho, hn, h.signature_cuts⟩

end Normal

/-- Whatever is read has no blanks at the ends of its pieces, and it is found again in the way it is
written exactly when neither the owner nor the name is empty. An empty one has been cut from a piece of
nothing but blanks. -/
theorem read_normal (accepted : read text = .ok s) :
    s.Normal ∧ (read s.render = .ok s ↔ s.owner ≠ "" ∧ s.name ≠ "") ∧
      ∃ c : Cuts, c.Of text ∧ c.signature = s ∧
        (s.owner = "" ↔ c.owner ≠ [] ∧ ∀ a ∈ c.owner, isBlank a = true) ∧
        (s.name = "" ↔ c.name ≠ [] ∧ ∀ a ∈ c.name, isBlank a = true) := by
  obtain ⟨c, hc, owner, name, rfl⟩ := read?_eq_some_iff.1 (read_eq_ok_iff.1 accepted)
  have empty (piece : List Char) : String.ofList (trim piece) = "" ↔ ∀ a ∈ piece, isBlank a = true := by
    rw [← trim_eq_nil_iff, ← String.toList_inj, String.toList_ofList]
    rfl
  refine ⟨hc.normal, read_eq_ok_iff.trans hc.normal.read?_render_iff, c, hc, rfl, ?_, ?_⟩
  · exact (empty c.owner).trans (and_iff_right owner).symm
  · exact (empty c.name).trans (and_iff_right name).symm

/-- Blanks around the pieces are no part of what is read. -/
theorem read_normal_spaced :
    read " < A:  B  f ( C ,, D)> " = .ok ⟨"A", some "B", "f", ["C", "D"]⟩ ∧
      read (render ⟨"A", some "B", "f", ["C", "D"]⟩) = .ok ⟨"A", some "B", "f", ["C", "D"]⟩ := by
  have accepted : read " < A:  B  f ( C ,, D)> " = .ok ⟨"A", some "B", "f", ["C", "D"]⟩ := by
    decide +kernel
  exact ⟨accepted, (read_normal accepted).2.1.2 (by decide)⟩

/-- A blank passes for the name of a type, and what has been read is not found again. -/
theorem read_blank_owner : read "< : void foo()>" = .ok ⟨"", none, "foo", []⟩ ∧
    read (render ⟨"", none, "foo", []⟩) =
      .error (.program "malformed method signature `<: void foo()>`") := by
  decide +kernel

end Signature

/-! ### References and their signatures -/

namespace Catalog

variable {c : Catalog} {r : MethodRef} {s : Signature} {text : String}

theorem type?_eq_some_iff {t : TypeId} {name : String} :
    c.type? name = some t ↔ c.typeName? t = some name := by
  rw [type?, Table.find?_eq_some_iff, typeName?, Option.map_eq_some_iff]
  rfl

/-- A signature gives the types of a reference by their names. -/
structure Names (c : Catalog) (r : MethodRef) (s : Signature) : Prop where
  owner : c.typeName? r.owner = some s.owner
  result : Option.Rel (fun t name => c.typeName? t = some name) r.sub.result s.result
  name : r.sub.name = s.name
  params : r.sub.params.mapM c.typeName? = some s.params

theorem exists_names (h : c.refSignature? r = some text) : ∃ s, c.Names r s ∧ s.render = text := by
  obtain ⟨owner, ho, h⟩ := Option.bind_eq_some_iff.1 h
  cases result : r.sub.result with
  | none =>
    rw [result] at h
    obtain ⟨_, void, h⟩ := Option.bind_eq_some_iff.1 h
    obtain ⟨params, hp, h⟩ := Option.bind_eq_some_iff.1 h
    cases void
    cases h
    exact ⟨⟨owner, none, r.sub.name, params⟩, ⟨ho, result ▸ .none, rfl, hp⟩, rfl⟩
  | some t =>
    rw [result] at h
    obtain ⟨name, ht, h⟩ := Option.bind_eq_some_iff.1 h
    obtain ⟨params, hp, h⟩ := Option.bind_eq_some_iff.1 h
    cases h
    exact ⟨⟨owner, some name, r.sub.name, params⟩, ⟨ho, result ▸ .some ht, rfl, hp⟩, rfl⟩

/-- Names that can be told apart in a signature. -/
structure Legible (c : Catalog) : Prop where
  types : ∀ (t : TypeId) d, c.types[t]? = some d →
    d.name ≠ "" ∧ ∀ a ∈ d.name.toList, isBlank a = false ∧ a ≠ ','
  methods : ∀ (m : MethodId) d, c.methods[m]? = some d →
    d.name ≠ "" ∧ ∀ a ∈ d.name.toList, isBlank a = false ∧ a ≠ ',' ∧ a ≠ '('
  void : c.type? "void" = none

instance : Decidable c.Legible :=
  -- a name is gone through, rather than all characters that there are
  have (l : List Char) (p : Char → Prop) [DecidablePred p] : Decidable (∀ a ∈ l, p a) :=
    List.decidableBAll p l
  decidable_of_iff ((∀ d ∈ c.types.toList, d.name ≠ "" ∧
      ∀ a ∈ d.name.toList, isBlank a = false ∧ a ≠ ',') ∧
    (∀ d ∈ c.methods.toList, d.name ≠ "" ∧
      ∀ a ∈ d.name.toList, isBlank a = false ∧ a ≠ ',' ∧ a ≠ '(') ∧ c.type? "void" = none)
    ⟨fun ⟨types, methods, void⟩ =>
      ⟨fun t d hd => types d (Table.mem_toList_iff.2 ⟨t, hd⟩),
        fun m d hd => methods d (Roster.mem_toList_iff.2 ⟨m, hd⟩), void⟩,
    fun h => ⟨fun d mem => (Table.mem_toList_iff.1 mem).elim fun t hd => h.types t d hd,
      fun d mem => (Roster.mem_toList_iff.1 mem).elim fun m hd => h.methods m d hd, h.void⟩⟩

namespace Legible

theorem typeName (h : c.Legible) {t : TypeId} {name : String} (named : c.typeName? t = some name) :
    c.type? name = some t ∧ name ≠ "void" ∧ name ≠ "" ∧
      ∀ a ∈ name.toList, isBlank a = false ∧ a ≠ ',' := by
  have found := type?_eq_some_iff.2 named
  obtain ⟨d, hd, rfl⟩ := Option.map_eq_some_iff.1 named
  refine ⟨found, fun void => ?_, h.types t d hd⟩
  rw [void, h.void] at found
  cases found

/-- The names of a reference make a normal form, in which nothing is empty. -/
theorem normal (h : c.Legible) (names : c.Names r s) (name : r.sub.name ≠ "" ∧
    ∀ a ∈ r.sub.name.toList, isBlank a = false ∧ a ≠ ',' ∧ a ≠ '(') :
    s.Normal ∧ s.owner ≠ "" ∧ s.name ≠ "" := by
  have space {l : List Char} (blankless : ∀ a ∈ l, isBlank a = false ∧ a ≠ ',') : ' ' ∉ l :=
    fun mem => absurd (blankless ' ' mem).1 (by decide)
  obtain ⟨-, -, owner_ne, owner⟩ := h.typeName names.owner
  rw [names.name] at name
  refine ⟨?_, owner_ne, name.1⟩
  exact
    { owner := bare_of_blankless fun a ha => (owner a ha).1
      owner_cut := fun inside => space owner (inside.mem (by simp))
      result := fun n found => by
        have named := names.result
        rw [found] at named
        generalize r.sub.result = result at named
        cases named with
        | some typeName =>
          obtain ⟨-, void, ne, all⟩ := h.typeName typeName
          obtain ⟨a, l, spelled⟩ := List.exists_cons_of_ne_nil (l := n.toList) (by simpa using ne)
          exact ⟨void, space all, a, by rw [spelled]; rfl, (all a (by simp [spelled])).1⟩
      name := bare_of_blankless fun a ha => (name.2 a ha).1
      name_cut := fun mem => (name.2 '(' mem).2.2 rfl
      params := fun n mem => by
        obtain ⟨i, lt, rfl⟩ := List.mem_iff_getElem.1 mem
        have named := mapM_eq_some_iff.1 names.params
        obtain ⟨-, -, ne, all⟩ := h.typeName (named.get (named.length_eq ▸ lt) lt)
        exact ⟨bare_of_blankless fun a ha => (all a ha).1, ne, fun comma => (all ',' comma).2 rfl⟩ }

end Legible

/-! ### Methods and their signatures -/

/-- The index of the signatures holds only methods with their own texts. -/
theorem mem_zip_of_getElem?_signatureIndex {texts : List String} {m : MethodId}
    (h : (c.signatureIndex texts).1[text]? = some m) : (m, text) ∈ c.methods.ids.zip texts := by
  have run {note : Index String MethodId × List String → MethodId × String →
        Index String MethodId × List String}
      (notes : ∀ r id text, (note r (id, text)).1 = r.1.insert text id)
      (l : List (MethodId × String)) (r : Index String MethodId × List String)
      (h : (l.foldl note r).1[text]? = some m) : (m, text) ∈ l ∨ r.1[text]? = some m := by
    induction l generalizing r with
    | nil => exact .inr h
    | cons pair l ih =>
      obtain later | here := ih _ h
      · exact .inl (List.mem_cons_of_mem pair later)
      rw [notes, Std.TreeMap.getElem?_insert] at here
      split at here
      next same =>
        cases here
        rw [← Coded.compare_eq_iff.1 same]
        exact .inl List.mem_cons_self
      next => exact .inr here
  refine (run (fun _ _ _ => rfl) _ _ h).resolve_right fun none => ?_
  simp at none

end Catalog

namespace Program

variable {b : Builder} {p : Program} {m : MethodId} {r : MethodRef} {s : Signature} {text : String}

/-- The methods of an accepted program are looked up by their signatures. -/
theorem method?_eq_some_iff (built : b.build = .ok p) :
    p.method? text = some m ↔ p.signature? m = some text := by
  constructor
  · intro found
    obtain ⟨texts, spelled, -, indexed⟩ := Builder.signatures_of_build built
    rw [method?, indexed] at found
    obtain ⟨i, pair⟩ := List.mem_iff_getElem?.1 (Catalog.mem_zip_of_getElem?_signatureIndex found)
    obtain ⟨id, written⟩ := List.getElem?_zip_eq_some.1 pair
    obtain ⟨known, rfl⟩ : i < p.methods.size ∧ ⟨i⟩ = m := by
      simpa [Roster.ids, Id.firsts, List.getElem?_eq_some_iff] using id
    obtain ⟨inside, rfl⟩ := List.getElem?_eq_some_iff.1 written
    have text := (mapM_eq_some_iff.1 spelled).get known inside
    have entry : p.methods[(⟨i⟩ : MethodId)]? = some (p.methods.toList.get ⟨i, known⟩) :=
      Array.getElem?_eq_getElem known
    rw [Catalog.signature?, entry]
    exact text
  · intro spelled
    obtain ⟨d, hd, -⟩ := Option.bind_eq_some_iff.1 spelled
    obtain ⟨text', spelled', found⟩ := signature_of_build built hd
    cases spelled.symm.trans spelled'
    exact found

/-- A reference is found again by the names of its types. -/
theorem ref?_of_names (legible : p.Legible) (names : p.Names r s) : p.ref? s = some r := by
  have owner : p.type? s.owner = some r.owner := (legible.typeName names.owner).1
  have params : s.params.mapM p.type? = some r.sub.params :=
    mapM_eq_some_iff.2 ((mapM_eq_some_iff.1 names.params).flip.imp fun _ _ named =>
      (legible.typeName named).1)
  have result : s.result.mapM p.type? = some r.sub.result := by
    have named := names.result
    generalize s.result = written, r.sub.result = result at named ⊢
    cases named with
    | none => rfl
    | some named => simp [(legible.typeName named).1]
  simp [ref?, owner, params, result, ← names.name]

/-- In a program that has been accepted, and whose names can be told apart, the signature of every
method is read back, and the types that it names make up the reference of the method. Different methods
have different signatures. -/
theorem signatures_reread (built : b.build = .ok p) (legible : p.Legible) :
    (∀ (m : MethodId) d, p.methods[m]? = some d → ∃ text s, p.signature? m = some text ∧
      Signature.read text = .ok s ∧ p.ref? s = some d.ref) ∧
    ∀ (m m' : MethodId) text, p.signature? m = some text → p.signature? m' = some text → m = m' := by
  constructor
  · intro m d hd
    obtain ⟨text, spelled, -⟩ := signature_of_build built hd
    obtain ⟨s, names, rfl⟩ := Catalog.exists_names (by rwa [Catalog.signature?, hd] at spelled)
    obtain ⟨normal, filled⟩ := legible.normal names (legible.methods m d hd)
    exact ⟨s.render, s, spelled, Signature.read_eq_ok_iff.2 (normal.read?_render_iff.2 filled),
      ref?_of_names legible names⟩
  · intro m m' text h h'
    rw [← method?_eq_some_iff built] at h h'
    exact Option.some.inj (h.symm.trans h')

open Examples in
/-- Among the methods are a void one and two of one name, whose owners differ. -/
theorem signatures_reread_drawing :
    (Builder.ofDeclarations drawing).build = .ok (.ofDeclarations drawing) ∧
    (Program.ofDeclarations drawing).Legible ∧
    (Program.ofDeclarations drawing).signature? ⟨0⟩ = some "<Shape: Circle draw(Circle)>" ∧
    (Program.ofDeclarations drawing).signature? ⟨2⟩ = some "<Circle: void main()>" ∧
    ∃ s, Signature.read "<Shape: Circle draw(Circle)>" = .ok s ∧
      (Program.ofDeclarations drawing).ref? s = some ⟨⟨0⟩, "draw", [⟨1⟩], some ⟨1⟩⟩ := by
  have built : (Builder.ofDeclarations drawing).build = .ok (.ofDeclarations drawing) :=
    build_ofDeclarations (by decide +kernel)
  have legible : (Program.ofDeclarations drawing).Legible := by decide +kernel
  have declared : (Program.ofDeclarations drawing).methods[(⟨0⟩ : MethodId)]?.map MethodDecl.ref =
      some ⟨⟨0⟩, "draw", [⟨1⟩], some ⟨1⟩⟩ := by decide +kernel
  have spelled : (Program.ofDeclarations drawing).signature? ⟨0⟩ =
      some "<Shape: Circle draw(Circle)>" := by decide +kernel
  obtain ⟨d, hd, ref⟩ := Option.map_eq_some_iff.1 declared
  obtain ⟨text, s, spelled', read, found⟩ := (signatures_reread built legible).1 ⟨0⟩ d hd
  cases spelled.symm.trans spelled'
  exact ⟨built, legible, spelled, by decide +kernel, s, read, ref ▸ found⟩

end Program

end PointsTo
