import PointsTo.Proofs.Constraints

/-!
The least solution of the constraints: the facts that all sets of facts have in common that satisfy
them. It satisfies the constraints itself.
-/
namespace PointsTo

variable {p : Program} {sel : Selector}

/-! ### Readings that have all they need in common -/

namespace Reading

variable {ι : Type} {R : ι → Reading} {c c' : Situation} {site : CallSiteId} {decl : CallSite}

/-- What all of several readings grant. -/
def meet (R : ι → Reading) : Reading where
  points P v := ∀ i, (R i).points P v
  carries P Q k := ∀ i, (R i).carries P Q k
  calls via c site c' m := ∀ i, (R i).calls via c site c' m

theorem site_meet (h : ∀ i, (R i).Site p sel c site decl) : (meet R).Site p sel c site decl := by
  unfold Site at h ⊢
  split
  next hk => exact fun callee target i => by simpa [hk, NamedCall, target] using h i
  next hk => exact fun callee target i => by simpa [hk, NamedCall, target] using h i
  next => trivial
  next => trivial
  next call hk =>
    rw [hk] at h
    exact fun concat result type hr ht i => h i concat result type hr ht

theorem reached_meet {m : MethodId} {n : Nat} {s : Statement}
    (h : ∀ i, (R i).Reached p sel c m n s) : (meet R).Reached p sel c m n s := by
  cases s with
  | new | assign | cast | loadStatic | storeStatic => exact h
  | invoke site => exact fun decl hd => site_meet fun i => h i decl hd
  | loadField | storeField | loadArray | storeArray | ret => trivial

theorem body_meet {m : MethodId} (h : ∀ i, (R i).Body p sel c m) : (meet R).Body p sel c m :=
  fun d hd n s hs => reached_meet fun i => h i d hd n s hs

theorem receiver_meet {o : Value} (h : ∀ i, (R i).Receiver p sel c site decl o) :
    (meet R).Receiver p sel c site decl o := fun callee target =>
  ⟨fun via hv i => (h i callee target).1 via hv,
    fun d this hd ht i => (h i callee target).2 d this hd ht⟩

theorem object_meet {o : Value} {s : Statement} (h : ∀ i, (R i).Object p sel c o s) :
    (meet R).Object p sel c o s := by
  cases s with
  | loadField | storeField | loadArray | storeArray => exact h
  | invoke site => exact fun decl hd => receiver_meet fun i => h i decl hd
  | new | assign | cast | loadStatic | storeStatic | ret => trivial

theorem link_meet {via : Via} {m : MethodId} (h : ∀ i, (R i).Link p via c site c' m) :
    (meet R).Link p via c site c' m := fun decl d hd hm =>
  ⟨fun pair hp i => (h i decl d hd hm).1 pair hp,
    fun result hr value hv i => (h i decl d hd hm).2.1 result hr value hv,
    fun special base this hb ht i => (h i decl d hd hm).2.2 special base this hb ht⟩

end Reading

/-! ### The least solution -/

namespace Solution

/-- The facts of all sets of facts that satisfy the constraints. -/
def least (p : Program) (sel : Selector) : Solution where
  reached c m := ∀ F : Solution, F.Closed p sel → F.reached c m
  points P v := ∀ F : Solution, F.Closed p sel → F.points P v
  calls via c site c' m := ∀ F : Solution, F.Closed p sel → F.calls via c site c' m

theorem least_le {F : Solution} (closed : F.Closed p sel) : (least p sel).Le F where
  reached _ _ h := h F closed
  points _ _ h := h F closed
  calls _ _ _ _ _ h := h F closed

/-- What all solutions grant, the least solution grants. -/
theorem meet_le_least :
    (Reading.meet fun F : { F : Solution // F.Closed p sel } => F.1.reading p).Le
      ((least p sel).reading p) where
  points _ _ h F closed := h ⟨F, closed⟩
  carries _ _ _ h v hv pass F closed := h ⟨F, closed⟩ v (hv F closed) pass
  calls _ _ _ _ _ h F closed := h ⟨F, closed⟩

/-- The least solution satisfies the constraints. -/
theorem closed_least : (least p sel).Closed p sel where
  entries m hm _ closed := closed.entries m hm
  statements c m reached := meet_le_least.body_mono <| Reading.body_meet fun ⟨F, closed⟩ =>
    closed.statements c m (reached F closed)
  objects c m d reached hd s mem v base o ho := meet_le_least.object_mono <|
    Reading.object_meet fun ⟨F, closed⟩ =>
      closed.objects c m d (reached F closed) hd s mem v base o (ho F closed)
  callees via c site c' m call F closed := closed.callees via c site c' m (call F closed)
  links via c site c' m call core :=
    (Reading.link_meet fun ⟨F, closed⟩ =>
      closed.links via c site c' m (call F closed) core).mono meet_le_least.carries

end Solution
end PointsTo
