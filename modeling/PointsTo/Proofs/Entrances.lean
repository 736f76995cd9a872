import PointsTo.Proofs.Reached

/-!
How the reached methods are handed to the plugins: every method in every context once it is reached,
and the method by itself before any of them.
-/
namespace PointsTo

namespace Solver

variable {s t u : Solver}

/-- In a list of events, every method in its context comes after the method by itself, but for the
methods that are known. -/
def Introduces (s : Solver) (known : MethodId → Prop) (l : List Event) : Prop :=
  ∀ before after cm, l = before ++ .contextMethod cm :: after → ∃ pair,
    s.elements.methods.get? cm = some pair ∧ (known pair.entity ∨ .method pair.entity ∈ before)

/-- Where an event is found in two lists one after the other. -/
theorem split_append {α : Type} {e : α} {l l' before after : List α}
    (split : l ++ l' = before ++ e :: after) :
    (∃ rest, l = before ++ e :: rest) ∨ ∃ rest, before = l ++ rest ∧ l' = rest ++ e :: after := by
  obtain ⟨rest, same, tail⟩ | ⟨rest, same, tail⟩ := List.append_eq_append_iff.1 split
  · exact .inr ⟨rest, same, tail⟩
  · cases rest with
    | nil => exact .inr ⟨[], by simpa using same.symm, tail.symm⟩
    | cons e' rest =>
      obtain ⟨rfl, -⟩ := List.cons.inj tail
      exact .inl ⟨rest, same⟩

namespace Introduces

variable {known known' : MethodId → Prop} {l : List Event}

theorem mono (h : s.Introduces known l) (st : s.elements.Within t.elements)
    (imp : ∀ m, known m → known' m) : t.Introduces known' l := by
  intro before after cm split
  obtain ⟨pair, hpair, first⟩ := h before after cm split
  exact ⟨pair, st.methods cm pair hpair, first.imp_left (imp _)⟩

theorem append {l' : List Event} (h : s.Introduces known l)
    (h' : s.Introduces (fun m => known m ∨ .method m ∈ l) l') : s.Introduces known (l ++ l') := by
  intro before after cm split
  obtain ⟨rest, told⟩ | ⟨rest, rfl, told⟩ := split_append split
  · exact h before rest cm told
  · obtain ⟨pair, hpair, first⟩ := h' rest after cm told
    refine ⟨pair, hpair, ?_⟩
    rw [List.mem_append, ← or_assoc]
    exact first

/-- A method that has just been entered. -/
theorem entered {cm : ContextMethodId} {pair : InContext .method}
    (hpair : s.elements.methods.get? cm = some pair) {reached : IndexSet MethodId} :
    s.Introduces (· ∈ reached)
      ((if pair.entity ∈ reached then [] else [.method pair.entity]) ++ [.contextMethod cm]) := by
  intro before after cm' split
  by_cases old : pair.entity ∈ reached
  · rw [if_pos old, List.nil_append, List.singleton_eq_append_iff] at split
    obtain ⟨rfl, tail⟩ | ⟨-, tail⟩ := split
    · cases tail
      exact ⟨pair, hpair, .inl old⟩
    · cases tail
  · rw [if_neg old] at split
    cases before with
    | nil => cases split
    | cons e before =>
      obtain ⟨rfl, others⟩ := List.cons.inj split
      obtain ⟨rfl, tail⟩ | ⟨-, tail⟩ := List.singleton_eq_append_iff.1 others
      · cases tail
        exact ⟨pair, hpair, .inr (by simp)⟩
      · cases tail

end Introduces

/-- Methods are reached, and announced in order. -/
structure Welcomes (s t : Solver) : Prop where
  elements : s.elements.Within t.elements
  kept : ∀ m ∈ s.reachedMethods, m ∈ t.reachedMethods
  announced : ∃ news, t.entrances = s.entrances ++ news ∧
    (∀ m ∈ t.reachedMethods, m ∈ s.reachedMethods ∨ .method m ∈ news) ∧
    (∀ cm, t.calls.Reaches cm → s.calls.Reaches cm ∨ .contextMethod cm ∈ news) ∧
    t.Introduces (· ∈ s.reachedMethods) news

instance : IsPreorder Solver Welcomes where
  refl s := ⟨.refl _, fun _ => id, [], by simp, fun _ => .inl, fun _ => .inl,
    fun before after cm split => by simp at split⟩
  trans s t u st tu := by
    obtain ⟨w, kept, news, eq, methods, contextMethods, introduces⟩ := st
    obtain ⟨w', kept', news', eq', methods', contextMethods', introduces'⟩ := tu
    refine ⟨w.trans w', fun m hm => kept' m (kept m hm), news ++ news', ?_, fun m hm => ?_,
      fun cm hcm => ?_, (introduces.mono w' fun _ => id).append
        (introduces'.mono (.refl _) methods)⟩
    · rw [eq', eq, List.append_assoc]
    · rw [List.mem_append, ← or_assoc]
      exact (methods' m hm).imp_left (methods m)
    · rw [List.mem_append, ← or_assoc]
      exact (contextMethods' cm hcm).imp_left (contextMethods cm)

theorem Contributes.welcomes (h : s.Contributes t) : s.Welcomes t where
  elements := h.elements
  kept m hm := by rwa [h.reachedMethods]
  announced := ⟨[], by rw [h.entrances, List.append_nil],
    fun m hm => .inl (h.reachedMethods ▸ hm), fun cm hcm => .inl (h.sameCalls ▸ hcm),
    fun before after cm split => by simp at split⟩

theorem welcomes_of_enters {calls : CallGraph} {cm : ContextMethodId} {pair : InContext .method}
    (reaches : ∀ x, calls.Reaches x ↔ s.calls.Reaches x ∨ x = cm)
    (st : Extends { s with calls } t) (hpair : s.elements.methods.get? cm = some pair)
    (entered : Enters cm pair.entity s t) : s.Welcomes t where
  elements := st.elements
  kept m hm := (entered.reachedMethods m).2 (.inl hm)
  announced := by
    refine ⟨_, entered.entrances, fun m hm => ?_, fun x hx => ?_,
      .entered (st.elements.methods cm pair hpair)⟩
    · by_cases old : m ∈ s.reachedMethods
      · exact .inl old
      obtain rfl := ((entered.reachedMethods m).1 hm).resolve_left old
      exact .inr (by simp [old])
    · rw [st.sameCalls] at hx
      refine ((reaches x).1 hx).imp_right ?_
      rintro rfl
      exact List.mem_append.2 (.inr (by simp))

end Solver

namespace Solve

open Solver

theorem welcomes_reachEntries : Relates Welcomes reachEntries :=
  relates_reachEntries (fun _ _ st => st.contributes.welcomes) fun _ s _ admitted => by
    cases admitted with
    | again => exact refl_of Welcomes s
    | first _ rest place enrols =>
      exact welcomes_of_enters (fun _ => CallGraph.reaches_reach) rest place enrols.enters

theorem welcomes_recorded {caller : ContextMethodId} {edge : CallEdge} {s t : Solver}
    (reached : s.calls.Reaches caller) (recorded : Recorded caller edge s t) : s.Welcomes t := by
  cases recorded with
  | again => exact refl_of Welcomes _
  | first fresh rest entered =>
    have reaches := CallGraph.reaches_add fresh reached
    obtain ⟨known, reached, entrances⟩ | ⟨pair, hpair, entered⟩ := entered
    · refine ⟨rest.elements, fun m hm => by rwa [reached], [], ?_, fun m hm => .inl (reached ▸ hm),
        fun cm hcm => .inl ?_, fun before after cm split => by simp at split⟩
      · rw [entrances, List.append_nil]
      · rw [rest.sameCalls] at hcm
        exact ((reaches cm).1 hcm).elim id (· ▸ known)
    · exact welcomes_of_enters reaches rest hpair entered

theorem welcomes_step : Relates Welcomes step := by
  refine relates_step (fun _ _ st => st.contributes.welcomes) (fun s _ _ => ?_)
    (fun _ _ _ _ reached added => welcomes_recorded reached added.recorded) fun _ _ _ handed => ?_
  · have same := refl_of Welcomes s
    exact ⟨same.elements, same.kept, same.announced⟩
  · have welcomes := handed.contributes.1.welcomes
    exact ⟨welcomes.elements, welcomes.kept, welcomes.announced⟩

end Solve

/-! ### What is done about reached methods -/

/-- Every reached method is announced, or has been dealt with: `Greeted` by itself, or `Seated` in its
context. -/
structure Solver.Receives (Greeted : MethodId → Prop) (Seated : ContextMethodId → Prop) (s : Solver) :
    Prop where
  methods : ∀ m ∈ s.reachedMethods, .method m ∈ s.entrances ∨ Greeted m
  contextMethods : ∀ cm, s.calls.Reaches cm → .contextMethod cm ∈ s.entrances ∨ Seated cm
  introduces : s.Introduces Greeted s.entrances

namespace Solver.Receives

variable {s t : Solver} {Greeted Greeted' : MethodId → Prop} {Seated Seated' : ContextMethodId → Prop}

theorem mono (h : s.Receives Greeted Seated) (greeted : ∀ m, Greeted m → Greeted' m)
    (seated : ∀ cm, s.calls.Reaches cm → Seated cm → Seated' cm) : s.Receives Greeted' Seated' where
  methods m hm := (h.methods m hm).imp_right (greeted m)
  contextMethods cm hcm := (h.contextMethods cm hcm).imp_right (seated cm hcm)
  introduces := h.introduces.mono (.refl _) greeted

theorem welcomes (h : s.Receives Greeted Seated) (st : s.Welcomes t) :
    t.Receives Greeted Seated := by
  obtain ⟨w, -, news, eq, methods, contextMethods, introduces⟩ := st
  refine ⟨fun m hm => ?_, fun cm hcm => ?_, ?_⟩
  · rw [eq, List.mem_append]
    obtain old | new := methods m hm
    · exact (h.methods m old).imp_left .inl
    · exact .inl (.inr new)
  · rw [eq, List.mem_append]
    obtain old | new := contextMethods cm hcm
    · exact (h.contextMethods cm old).imp_left .inl
    · exact .inl (.inr new)
  · rw [eq]
    refine (h.introduces.mono w fun _ => id).append (introduces.mono (.refl _) fun m hm => ?_)
    exact (h.methods m hm).symm

variable {e : Event} {rest : Queue Event} (next : s.events.toList = e :: rest.toList)
include next

/-- The methods of the contexts that come first have been dealt with. -/
theorem greeted_of_next (h : s.Receives Greeted Seated) {cm : ContextMethodId}
    (he : e = .contextMethod cm) :
    ∃ pair, s.elements.methods.get? cm = some pair ∧ Greeted pair.entity := by
  subst he
  have split : s.entrances = [] ++ .contextMethod cm :: rest.toList.filter Event.isEntrance := by
    rw [Solver.entrances, next, List.filter_cons_of_pos rfl, List.nil_append]
  obtain ⟨pair, hpair, first⟩ := h.introduces _ _ _ split
  exact ⟨pair, hpair, first.resolve_right List.not_mem_nil⟩

/-- An event that has been handled need no longer be announced. -/
theorem handled (h : s.Receives Greeted Seated) (greeted : ∀ m, e = .method m → Greeted m)
    (seated : ∀ cm, e = .contextMethod cm → Seated cm) :
    Solver.Receives Greeted Seated { s with events := rest } := by
  have left (e') (mem : e' ∈ s.entrances) :
      e' = e ∨ e' ∈ Solver.entrances { s with events := rest } := by
    rw [Solver.entrances, next, List.mem_filter, List.mem_cons] at mem
    exact mem.1.imp_right fun old => List.mem_filter.2 ⟨old, mem.2⟩
  refine ⟨fun m hm => ?_, fun cm hcm => ?_, fun before after cm split => ?_⟩
  · obtain announced | done := h.methods m hm
    · exact (left _ announced).symm.imp_right fun same => greeted m same.symm
    · exact .inr done
  · obtain announced | done := h.contextMethods cm hcm
    · exact (left _ announced).symm.imp_right fun same => seated cm same.symm
    · exact .inr done
  · have all : s.entrances = (if e.isEntrance then [e] else []) ++
        Solver.entrances { s with events := rest } := by
      rw [Solver.entrances, next, List.filter_cons]
      split <;> rfl
    rw [split, ← List.append_assoc] at all
    obtain ⟨pair, hpair, first⟩ := h.introduces _ _ _ all
    refine ⟨pair, hpair, first.elim .inl fun mem => ?_⟩
    obtain mem | mem := List.mem_append.1 mem
    · split at mem
      · exact .inl (greeted _ (List.mem_singleton.1 mem).symm)
      · cases mem
    · exact .inr mem

end Solver.Receives

end PointsTo
