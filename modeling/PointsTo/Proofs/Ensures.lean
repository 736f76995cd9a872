import Mathlib.Data.List.Forall2
import PointsTo.Plugin

/-!
Partial correctness of computations that may fail: what holds of every value such a computation
gives and of the state it leaves behind.
-/
namespace PointsTo

variable {σ α β : Type}

/-- What belongs to an element of the first of two related lists. -/
theorem exists_mem_right {R : α → β → Prop} {as : List α} {bs : List β}
    (h : List.Forall₂ R as bs) : ∀ a ∈ as, ∃ b ∈ bs, R a b := by
  induction h with
  | nil => simp
  | cons hab _ ih =>
    refine List.forall_mem_cons.2 ⟨⟨_, by simp, hab⟩, fun a ha => ?_⟩
    exact (ih a ha).imp fun b => .imp_left (List.mem_cons_of_mem _)

/-- What an element of the second of two related lists belongs to. -/
theorem exists_mem_left {R : α → β → Prop} {as : List α} {bs : List β}
    (h : List.Forall₂ R as bs) : ∀ b ∈ bs, ∃ a ∈ as, R a b := exists_mem_right h.flip

/-- Whenever `f` gives a value from the state `s`, the value and the new state satisfy `Q`. -/
def Ensures (f : ExceptT Fault (StateM σ) α) (s : σ) (Q : α → σ → Prop) : Prop :=
  ∀ a s', f s = (.ok a, s') → Q a s'

/-- Whether `f` fails or not, the state that it leaves behind satisfies `Q`. -/
def Leaves (f : ExceptT Fault (StateM σ) α) (s : σ) (Q : σ → Prop) : Prop := Q (f s).2

namespace Ensures

variable {f : ExceptT Fault (StateM σ) α} {g : α → ExceptT Fault (StateM σ) β} {s : σ}
  {P Q : α → σ → Prop} {R : β → σ → Prop}

theorem mono (h : Ensures f s P) (imp : ∀ a s', P a s' → Q a s') : Ensures f s Q :=
  fun a s' run => imp a s' (h a s' run)

theorem and (hP : Ensures f s P) (hQ : Ensures f s Q) :
    Ensures f s fun a s' => P a s' ∧ Q a s' :=
  fun a s' run => ⟨hP a s' run, hQ a s' run⟩

theorem pure {a : α} (h : Q a s) : Ensures (Pure.pure a) s Q := by
  rintro _ _ run
  cases run
  exact h

theorem throw {fault : Fault} : Ensures (MonadExcept.throw fault) s Q := by
  rintro _ _ run
  cases run

theorem bind_run (f : ExceptT Fault (StateM σ) α) (g : α → ExceptT Fault (StateM σ) β) (s : σ) :
    (f >>= g) s = match f s with
      | (.ok a, s') => g a s'
      | (.error fault, s') => (.error fault, s') := by
  change (match f s with
    | (r, s') => ExceptT.bindCont g r s') = _
  rcases f s with ⟨_ | _, _⟩ <;> rfl

theorem bind (hf : Ensures f s P) (hg : ∀ a s', P a s' → Ensures (g a) s' R) :
    Ensures (f >>= g) s R := by
  intro b t run
  rw [bind_run] at run
  split at run
  next a s' hs => exact hg a s' (hf a s' hs) b t run
  next => cases run

/-- Something is done under a condition, before the rest. -/
theorem ite_bind {c : Prop} [Decidable c] {f : ExceptT Fault (StateM σ) PUnit}
    {rest : ExceptT Fault (StateM σ) β} {P : σ → Prop} (hf : c → Ensures f s fun _ => P)
    (skip : ¬ c → P s) (hrest : ∀ t, P t → Ensures rest t R) :
    Ensures (if c then f >>= fun _ => rest else rest) s R := by
  split
  next h => exact bind (hf h) fun _ => hrest
  next h => exact hrest s (skip h)

/-- A loop: what each round achieves holds at the end, when the rounds relate the states by `R`
and nothing that `R` allows undoes it. -/
theorem forM {l : List α} {f : α → ExceptT Fault (StateM σ) PUnit} {R : σ → σ → Prop}
    {D : α → σ → Prop} (refl : ∀ s t, R s t → R t t)
    (trans : ∀ s t u, R s t → R t u → R s u) (up : ∀ a s t, R s t → D a s → D a t) (start : R s s)
    (round : ∀ a ∈ l, ∀ t, R s t → Ensures (f a) t fun _ u => R t u ∧ D a u) :
    Ensures (l.forM f) s fun _ t => R s t ∧ ∀ a ∈ l, D a t := by
  induction l generalizing s with
  | nil => exact pure ⟨start, by simp⟩
  | cons a l ih =>
    change Ensures (f a >>= fun _ => l.forM f) s _
    refine bind (round a (by simp) s start) fun _ t ⟨st, done⟩ => ?_
    refine (ih (refl s t st) fun b hb u tu => round b (by simp [hb]) u (trans s t u st tu)).mono ?_
    rintro _ u ⟨tu, rest⟩
    exact ⟨trans s t u st tu, List.forall_mem_cons.2 ⟨up a t u tu done, rest⟩⟩

theorem map {h : α → β} (hf : Ensures f s fun a s' => R (h a) s') : Ensures (h <$> f) s R :=
  bind hf fun _ _ => pure

/-- A loop that collects values: what is true of each round's value when it is found is true of all
values at the end. -/
theorem mapM_forall₂ {l : List α} {f : α → ExceptT Fault (StateM σ) β} {R : σ → σ → Prop}
    {D : α → β → σ → Prop} (refl : ∀ s t, R s t → R t t) (trans : ∀ s t u, R s t → R t u → R s u)
    (up : ∀ a b s t, R s t → D a b s → D a b t) (start : R s s)
    (round : ∀ a ∈ l, ∀ t, R s t → Ensures (f a) t fun b u => R t u ∧ D a b u) :
    Ensures (l.mapM f) s fun bs t => R s t ∧ List.Forall₂ (fun a b => D a b t) l bs := by
  induction l generalizing s with
  | nil => exact pure ⟨start, .nil⟩
  | cons a l ih =>
    rw [List.mapM_cons]
    refine bind (round a (by simp) s start) fun b t ⟨st, found⟩ => ?_
    refine bind (ih (refl s t st) fun a' h u tu => round a' (by simp [h]) u (trans s t u st tu))
      fun bs u ⟨tu, all⟩ => pure ?_
    exact ⟨trans s t u st tu, .cons (up a b t u tu found) all⟩

theorem mapM {l : List α} {f : α → ExceptT Fault (StateM σ) β} {R : σ → σ → Prop}
    {D : β → σ → Prop} (refl : ∀ s t, R s t → R t t)
    (trans : ∀ s t u, R s t → R t u → R s u) (up : ∀ b s t, R s t → D b s → D b t) (start : R s s)
    (round : ∀ a ∈ l, ∀ t, R s t → Ensures (f a) t fun b u => R t u ∧ D b u) :
    Ensures (l.mapM f) s fun bs t => R s t ∧ ∀ b ∈ bs, D b t := by
  refine (mapM_forall₂ (D := fun _ => D) refl trans (fun _ => up) start round).mono ?_
  rintro bs t ⟨st, all⟩
  refine ⟨st, fun b hb => ?_⟩
  obtain ⟨_, -, found⟩ := exists_mem_left all b hb
  exact found

theorem get {Q : σ → σ → Prop} (h : Q s s) : Ensures MonadState.get s Q := by
  rintro _ _ run
  cases run
  exact h

theorem set {t : σ} {Q : PUnit → σ → Prop} (h : Q ⟨⟩ t) : Ensures (MonadStateOf.set t) s Q := by
  rintro _ _ run
  cases run
  exact h

theorem modifyGet {h : σ → α × σ} (post : Q (h s).1 (h s).2) :
    Ensures (MonadStateOf.modifyGet h) s Q := by
  rintro _ _ run
  cases run
  exact post

theorem modify {h : σ → σ} {Q : PUnit → σ → Prop} (post : Q ⟨⟩ (h s)) :
    Ensures (modify h) s Q := by
  rintro _ _ run
  cases run
  exact post

end Ensures

namespace Leaves

variable {f : ExceptT Fault (StateM σ) α} {g : α → ExceptT Fault (StateM σ) β} {s : σ}
  {P : α → σ → Prop} {Q : σ → Prop}

theorem ensures (h : Leaves f s Q) : Ensures f s fun _ => Q := fun _ _ run => by
  rw [Leaves, run] at h
  exact h

theorem bind (hf : Ensures f s P) (hQ : Leaves f s Q)
    (hg : ∀ a s', P a s' → Q s' → Leaves (g a) s' Q) : Leaves (f >>= g) s Q := by
  unfold Leaves at *
  rw [Ensures.bind_run]
  split
  next a s' run =>
    rw [run] at hQ
    exact hg a s' (hf a s' run) hQ
  next fault s' run =>
    rw [run] at hQ
    exact hQ

/-- A loop whose rounds keep a property of the state keeps it. -/
theorem forM {l : List α} {f : α → ExceptT Fault (StateM σ) PUnit}
    (round : ∀ a ∈ l, ∀ s, Q s → Leaves (f a) s Q) (hs : Q s) : Leaves (l.forM f) s Q := by
  induction l generalizing s with
  | nil => exact hs
  | cons a l ih =>
    change Leaves (f a >>= fun _ => l.forM f) s Q
    exact bind (P := fun _ _ => True) (fun _ _ _ => trivial) (round a (by simp) s hs)
      fun _ _ _ => ih fun b hb => round b (by simp [hb])

theorem mapM {l : List α} {f : α → ExceptT Fault (StateM σ) β}
    (round : ∀ a ∈ l, ∀ s, Q s → Leaves (f a) s Q) (hs : Q s) : Leaves (l.mapM f) s Q := by
  induction l generalizing s with
  | nil => exact hs
  | cons a l ih =>
    rw [List.mapM_cons]
    refine bind (P := fun _ _ => True) (fun _ _ _ => trivial) (round a (by simp) s hs)
      fun _ t _ ht => ?_
    exact bind (P := fun _ _ => True) (fun _ _ _ => trivial)
      (ih (fun b hb => round b (by simp [hb])) ht) fun _ _ _ => id

end Leaves

/-- What a computation on the solver ensures, it ensures as a reaction. -/
theorem ensures_solve {f : Solve α} {own : σ} {s : Solver} {Q : α → σ × Solver → Prop}
    (h : Ensures f s fun a t => Q a (own, t)) : Ensures (Reaction.solve f) (own, s) Q := by
  rintro a ⟨own', t⟩ run
  change ((f s).1, own, (f s).2) = (.ok a, own', t) at run
  rcases hf : f s with ⟨r, u⟩
  rw [hf] at run
  cases run
  exact h a u hf

/-- A lookup in the solver. -/
theorem ensures_lookup {f : Solve α} {own : σ} {s : Solver} {D : α → Prop}
    (h : Ensures f s fun a t => s = t ∧ D a) :
    Ensures (Reaction.solve f) (own, s) fun a st => (own, s) = st ∧ D a :=
  ensures_solve (h.mono fun _ _ ⟨same, found⟩ => ⟨by rw [same], found⟩)

theorem ensures_own {own : σ} {s : Solver} :
    Ensures Reaction.own (own, s) fun own' st => own = own' ∧ (own, s) = st := by
  rintro _ _ run
  cases run
  exact ⟨rfl, rfl⟩

theorem ensures_solver {own : σ} {s : Solver} :
    Ensures Reaction.solver (own, s) fun t st => s = t ∧ (own, s) = st := by
  rintro _ _ run
  cases run
  exact ⟨rfl, rfl⟩

theorem ensures_modifyOwn {f : σ → σ} {own : σ} {s : Solver} {Q : Unit → σ × Solver → Prop}
    (post : Q ⟨⟩ (f own, s)) : Ensures (Reaction.modifyOwn f) (own, s) Q := .modify post

end PointsTo
