import Mathlib.Data.List.Induction
import Mathlib.Data.Set.Insert
import Mathlib.Data.Set.Function
import PointsTo.Proofs.Sets

/-!
A pending store hands out every element of a key exactly once.

Beside the store runs a ledger: what has been added to a key so far, and how much of it had been
added when the key was last flushed. The store tells nothing but what the ledger says.
-/
namespace PointsTo.Facts.PendingStore

variable {κ α : Type} [Coded κ] [DecidableEq α] [Indexed α]

/-- What can be done to a store. A set that is added may be any set, among them all elements that
some key has at that moment. -/
inductive Operation (κ α : Type) [DecidableEq α] [Indexed α]
  | add (k : κ) (a : α)
  | union (k : κ) (elems : HybridSet α)
  | unionAll (k source : κ)
  | flush (k : κ)

/-- What an operation tells its caller. -/
inductive Report (α : Type) [DecidableEq α] [Indexed α]
  | changed (b : Bool)
  | handed (elems : Option (HybridSet α))

/-- The set that is handed out, if there is one. -/
def Report.batch : Report α → Option (HybridSet α)
  | changed _ => none
  | handed new => new

/-- What has been added to the keys, and what had been when they were last flushed. -/
structure Ledger (κ α : Type) where
  added : κ → Set α := fun _ => ∅
  settled : κ → Set α := fun _ => ∅

namespace Ledger

variable (ledger : Ledger κ α)

/-- What has been added since the last flush and was new to the key. -/
def recent (k : κ) : Set α := ledger.added k \ ledger.settled k

variable [DecidableEq κ]

def receive (k : κ) (elems : Set α) : Ledger κ α :=
  { ledger with added := Function.update ledger.added k (ledger.added k ∪ elems) }

def settle (k : κ) : Ledger κ α :=
  { ledger with settled := Function.update ledger.settled k (ledger.added k) }

end Ledger

namespace Operation

/-- The key that an operation is about. -/
def key : Operation κ α → κ
  | add k _ | union k _ | unionAll k _ | flush k => k

def perform (d : PendingStore κ α) : Operation κ α → Report α × PendingStore κ α
  | add k a => let (fresh, d) := d.add k a; (.changed fresh, d)
  | union k elems => let (grew, d) := d.union k elems; (.changed grew, d)
  | unionAll k source => let (grew, d) := d.union k (d.all source); (.changed grew, d)
  | flush k => let (new, d) := d.flush k; (.handed new, d)

/-- The store after a sequence of operations. -/
def run (ops : List (Operation κ α)) : PendingStore κ α :=
  ops.foldl (fun d op => (op.perform d).2) {}

theorem run_concat {history : List (Operation κ α)} {op : Operation κ α} :
    run (history ++ [op]) = (op.perform (run history)).2 := List.foldl_concat ..

variable [DecidableEq κ]

def record (ledger : Ledger κ α) : Operation κ α → Ledger κ α
  | add k a => ledger.receive k {a}
  | union k elems => ledger.receive k {a | a ∈ elems}
  | unionAll k source => ledger.receive k (ledger.added source)
  | flush k => ledger.settle k

/-- What a report has to say, given the stores before and after the operation and the ledger before
it. -/
def Truthful (before after : PendingStore κ α) (ledger : Ledger κ α) :
    Operation κ α → Report α → Prop
  | add k a, .changed fresh => fresh = true ↔ a ∉ before.all k
  | union k _, .changed grew | unionAll k _, .changed grew =>
    grew = true ↔ ∃ a ∈ after.all k, a ∉ before.all k
  | flush k, .handed none => ledger.recent k = ∅
  | flush k, .handed (some new) =>
    (ledger.recent k).Nonempty ∧ new.toList.Nodup ∧ {a | a ∈ new} = ledger.recent k
  | _, _ => False

/-- The ledger after a sequence of operations. -/
def records (ops : List (Operation κ α)) : Ledger κ α := ops.foldl record {}

/-- What the flushes of a key hand out one after the other, from some store on. -/
def handedOut (k : κ) : PendingStore κ α → List (Operation κ α) → List (HybridSet α)
  | _, [] => []
  | d, op :: ops =>
    (if op.key = k then (op.perform d).1.batch.toList else []) ++ handedOut k (op.perform d).2 ops

end Operation

variable {d : PendingStore κ α} {k l : κ} {a : α} {elems : HybridSet α}

/-! ### Other keys -/

/-- The two parts of a key are left as they are. -/
structure Keeps (before after : PendingStore κ α) (k : κ) : Prop where
  pending : after.pending[k]? = before.pending[k]?
  propagated : after.propagated[k]? = before.propagated[k]?

theorem Keeps.refl : Keeps d d k := ⟨rfl, rfl⟩

theorem Keeps.all_eq {e : PendingStore κ α} (h : Keeps d e k) : e.all k = d.all k := by
  unfold all propagatedOf
  rw [Std.TreeMap.getD_eq_getD_getElem?, Std.TreeMap.getD_eq_getD_getElem?, h.pending,
    h.propagated]

theorem getElem?_insert_ne {m : Index κ (HybridSet α)} {s : HybridSet α} (ne : l ≠ k) :
    (m.insert k s)[l]? = m[l]? := by
  rw [Std.TreeMap.getElem?_insert, if_neg]
  exact fun same => ne (Coded.compare_eq_iff.1 same).symm

theorem keeps_add (ne : l ≠ k) : Keeps d (d.add k a).2 l := by
  unfold add
  split
  next => exact .refl
  next => exact ⟨getElem?_insert_ne ne, rfl⟩

theorem keeps_union (ne : l ≠ k) : Keeps d (d.union k elems).2 l := by
  rw [union_eq]
  split
  next => exact .refl
  next => exact ⟨getElem?_insert_ne ne, rfl⟩

theorem keeps_flush (ne : l ≠ k) : Keeps d (d.flush k).2 l := by
  unfold flush
  split
  next => exact .refl
  next =>
    split
    next => exact .refl
    next => exact ⟨getElem?_insert_ne ne, getElem?_insert_ne ne⟩

/-- No operation touches another key than its own. -/
theorem Operation.keeps_perform {op : Operation κ α} (ne : l ≠ op.key) :
    Keeps d (op.perform d).2 l := by
  cases op with
  | add => exact keeps_add ne
  | union => exact keeps_union ne
  | unionAll => exact keeps_union ne
  | flush => exact keeps_flush ne

/-! ### The ledger -/

variable {ledger : Ledger κ α}

/-- Two sets without a common element. -/
def Apart (s t : HybridSet α) : Prop := ∀ a ∈ s, a ∉ t

/-- The store has what the ledger says, and the two parts of a key share no element. -/
structure Exact (d : PendingStore κ α) (ledger : Ledger κ α) : Prop where
  mem_all : ∀ k a, a ∈ d.all k ↔ a ∈ ledger.added k
  mem_propagatedOf : ∀ k a, a ∈ d.propagatedOf k ↔ a ∈ ledger.settled k
  apart : ∀ k, Apart (d.pendingOf k) (d.propagatedOf k)

/-- What is still to be passed on is what is recent. -/
theorem Exact.mem_pendingOf (h : Exact d ledger) : a ∈ d.pendingOf k ↔ a ∈ ledger.recent k := by
  rw [Ledger.recent, Set.mem_sdiff, ← h.mem_all, ← h.mem_propagatedOf, PendingStore.mem_all]
  constructor
  · exact fun new => ⟨.inl new, h.apart k a new⟩
  · exact fun ⟨mem, unseen⟩ => mem.resolve_right unseen

theorem exact_empty : Exact ({} : PendingStore κ α) {} where
  mem_all _ _ := iff_of_false HybridSet.not_mem_empty id
  mem_propagatedOf _ _ := iff_of_false HybridSet.not_mem_empty id
  apart _ _ mem := absurd mem HybridSet.not_mem_empty

/-- The flag of `union` is set exactly when `k` gains an element. -/
theorem grew_iff : (d.union k elems).1 = true ↔ ∃ a ∈ (d.union k elems).2.all k, a ∉ d.all k := by
  rw [union_fst]
  simp only [mem_all_union, true_and]
  exact exists_congr fun a => and_congr_left fun fresh => (or_iff_right fresh).symm

/-- Every report is what the ledger says. -/
theorem Exact.truthful {op : Operation κ α} (h : Exact d ledger) :
    op.Truthful d (op.perform d).2 ledger (op.perform d).1 := by
  cases op with
  | add k a => exact add_fst
  | union k elems => exact grew_iff
  | unionAll k source => exact grew_iff
  | flush k =>
    change Operation.Truthful d (d.flush k).2 ledger (.flush k) (.handed (d.flush k).1)
    cases handed : (d.flush k).1 with
    | none =>
      refine Set.eq_empty_of_forall_notMem fun a mem => ?_
      exact pendingOf_of_flush handed (h.mem_pendingOf.2 mem)
    | some new =>
      have same (a : α) : a ∈ new ↔ a ∈ ledger.recent k :=
        (mem_of_flush handed).trans h.mem_pendingOf
      obtain ⟨a, mem⟩ := exists_mem_of_flush handed
      exact ⟨⟨a, (same a).1 mem⟩, HybridSet.nodup_toList, Set.ext same⟩

theorem propagatedOf_subset {op : Operation κ α} (mem : a ∈ d.propagatedOf k) :
    a ∈ (op.perform d).2.propagatedOf k := by
  cases op with
  | add => exact (propagatedOf_add (d := d)).symm ▸ mem
  | union => exact (propagatedOf_union (d := d)).symm ▸ mem
  | unionAll => exact (propagatedOf_union (d := d)).symm ▸ mem
  | flush => exact mem_propagatedOf_flush.2 (.inl mem)

/-- What is handed out was still to be passed on, and counts as passed on from then. -/
theorem passed_of_batch {op : Operation κ α} {new : HybridSet α}
    (handed : (op.perform d).1.batch = some new) (mem : a ∈ new) :
    a ∈ d.pendingOf op.key ∧ a ∈ (op.perform d).2.propagatedOf op.key := by
  cases op with
  | add | union | unionAll => cases handed
  | flush k =>
    have pending : a ∈ d.pendingOf k := (mem_of_flush handed).1 mem
    exact ⟨pending, mem_propagatedOf_flush.2 (.inr ⟨rfl, pending⟩)⟩

/-! ### Runs -/

variable [DecidableEq κ]

theorem Exact.receive {e : PendingStore κ α} {elems : Set α} (h : Exact d ledger)
    (all : ∀ l a, a ∈ e.all l ↔ a ∈ d.all l ∨ l = k ∧ a ∈ elems)
    (propagated : ∀ l, e.propagatedOf l = d.propagatedOf l)
    (pending : ∀ l a, a ∈ e.pendingOf l → a ∈ d.pendingOf l ∨ a ∉ d.propagatedOf l) :
    Exact e (ledger.receive k elems) where
  mem_all l a := by
    rw [all, h.mem_all, Ledger.receive]
    by_cases same : l = k
    · subst same
      simp
    · simp [same]
  mem_propagatedOf l a := by
    rw [propagated]
    exact h.mem_propagatedOf l a
  apart l a mem := by
    rw [propagated]
    exact (pending l a mem).elim (h.apart l a) id

theorem Exact.perform {op : Operation κ α} (h : Exact d ledger) :
    Exact (op.perform d).2 (op.record ledger) := by
  have union {k : κ} {elems : HybridSet α} :
      Exact (d.union k elems).2 (ledger.receive k {a | a ∈ elems}) := by
    refine h.receive (fun l a => mem_all_union) (fun l => propagatedOf_union) fun l a mem => ?_
    obtain old | ⟨rfl, -, unseen⟩ := mem_pendingOf_union.1 mem
    · exact .inl old
    · exact .inr unseen
  cases op with
  | add k a =>
    refine h.receive (fun l b => mem_all_add) (fun l => propagatedOf_add) fun l b mem => ?_
    obtain old | ⟨rfl, rfl, unseen⟩ := mem_pendingOf_add.1 mem
    · exact .inl old
    · exact .inr unseen
  | union k elems => exact union
  | unionAll k source =>
    have same : {a | a ∈ d.all source} = ledger.added source := Set.ext fun a => h.mem_all source a
    change Exact _ (ledger.receive k (ledger.added source))
    rw [← same]
    exact union
  | flush k =>
    exact
      { mem_all := fun l a => mem_all_flush.trans (h.mem_all l a)
        mem_propagatedOf := fun l a => by
          change a ∈ (d.flush k).2.propagatedOf l ↔
            a ∈ Function.update ledger.settled k (ledger.added k) l
          rw [mem_propagatedOf_flush]
          by_cases same : l = k
          · subst same
            rw [Function.update_self, ← h.mem_all, PendingStore.mem_all, eq_self_iff_true, true_and,
              or_comm]
          · rw [Function.update_of_ne same, ← h.mem_propagatedOf]
            simp only [same, false_and, or_false]
        apart := fun l a mem => by
          change a ∉ (d.flush k).2.propagatedOf l
          obtain ⟨other, mem⟩ := mem_pendingOf_flush.1 mem
          rw [mem_propagatedOf_flush, not_or, not_and]
          exact ⟨h.apart l a mem, fun same _ => other same⟩ }

/-- From any exact store on, nothing is handed out that has been, and nothing twice. -/
theorem Exact.handedOut {ops : List (Operation κ α)} (h : Exact d ledger) :
    (Operation.handedOut k d ops).Pairwise Apart ∧
      ∀ s ∈ Operation.handedOut k d ops, ∀ a ∈ s, a ∉ d.propagatedOf k := by
  induction ops generalizing d ledger with
  | nil => exact ⟨.nil, fun s mem => absurd mem List.not_mem_nil⟩
  | cons op ops ih =>
    -- What this operation hands out has been passed on from here, and what has been passed on is
    -- never handed out later.
    have after : Exact (op.perform d).2 (op.record ledger) := h.perform
    obtain ⟨apart, unseen⟩ := ih after
    have batch {s : HybridSet α}
        (mem : s ∈ if op.key = k then (op.perform d).1.batch.toList else []) :
        op.key = k ∧ (op.perform d).1.batch = some s := by
      split at mem
      next here => exact ⟨here, Option.mem_toList.1 mem⟩
      next => exact absurd mem List.not_mem_nil
    unfold Operation.handedOut
    constructor
    · refine List.pairwise_append.2 ⟨?_, apart, fun s now t later a ha hb => ?_⟩
      · split
        next => cases (op.perform d).1.batch <;> simp
        next => exact .nil
      · obtain ⟨rfl, handed⟩ := batch now
        exact unseen t later a hb (passed_of_batch handed ha).2
    · intro s mem a ha
      obtain now | later := List.mem_append.1 mem
      · obtain ⟨rfl, handed⟩ := batch now
        exact h.apart _ a (passed_of_batch handed ha).1
      · exact fun old => unseen s later a ha (propagatedOf_subset old)

theorem exact_run (history : List (Operation κ α)) :
    Exact (Operation.run history) (Operation.records history) := by
  induction history using List.reverseRecOn with
  | nil => exact exact_empty
  | append_singleton history op ih =>
    unfold Operation.records
    rw [Operation.run_concat, List.foldl_concat]
    exact ih.perform

/-- After any history the store is exact, whatever is done next is reported truthfully and leaves
the other keys alone, and no two flushes of a key have handed out the same element. -/
theorem delivers_once (history : List (Operation κ α)) (next : Operation κ α) :
    Exact (Operation.run history) (Operation.records history) ∧
      next.Truthful (Operation.run history) (Operation.run (history ++ [next]))
        (Operation.records history) (next.perform (Operation.run history)).1 ∧
      (∀ l, l ≠ next.key →
        Keeps (Operation.run history) (Operation.run (history ++ [next])) l ∧
          (Operation.run (history ++ [next])).all l = (Operation.run history).all l) ∧
      ∀ k, (Operation.handedOut k {} history).Pairwise Apart := by
  have exact_history := exact_run history
  refine ⟨exact_history, ?_, fun l other => ?_, fun k => exact_empty.handedOut.1⟩
  · rw [Operation.run_concat]
    exact exact_history.truthful
  · rw [Operation.run_concat]
    have keeps := Operation.keeps_perform (d := Operation.run history) other
    exact ⟨keeps, keeps.all_eq⟩

end PointsTo.Facts.PendingStore
