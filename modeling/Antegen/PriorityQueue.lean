import Mathlib.Data.List.Sort
import Mathlib.Order.Basic

/-!
# Priority queues

A queue gives out an element with the least key first. Which one of several elements
with the same key comes first is left open, so a result for every `MinHeap` does not
depend on it. Popping while the least key is within a bound yields all elements within
the bound.
-/
namespace Antegen

/-- Priority queues with their elements in the order in which they would be drained. -/
class MinHeap (Q : Type*) {α κ : outParam Type*} [outParam (LinearOrder κ)]
    (key : outParam (α → κ)) where
  drain : Q → List α
  empty : Q
  push : Q → α → Q
  pop : Q → Option (α × Q)
  drain_empty : drain empty = []
  drain_push : ∀ q a, (drain (push q a)).Perm (a :: drain q)
  pop_none : ∀ q, pop q = none → drain q = []
  pop_some : ∀ q a q', pop q = some (a, q') →
    (drain q).Perm (a :: drain q') ∧ ∀ b ∈ drain q, key a ≤ key b

namespace MinHeap

variable {Q α κ : Type*} [LinearOrder κ] {key : α → κ} [MinHeap Q key]

theorem mem_push {q : Q} {a b : α} : b ∈ drain (push q a) ↔ b = a ∨ b ∈ drain q := by
  rw [(drain_push q a).mem_iff, List.mem_cons]

/-- The queue with exactly these elements. -/
def ofList (l : List α) : Q := l.foldl push empty

theorem mem_ofList {l : List α} {b : α} : b ∈ drain (ofList l : Q) ↔ b ∈ l := by
  have hfold : ∀ q : Q, b ∈ drain (l.foldl push q) ↔ b ∈ l ∨ b ∈ drain q := by
    intro q
    induction l generalizing q with
    | nil => simp
    | cons a l ih => rw [List.foldl_cons, ih, mem_push, List.mem_cons]; tauto
  rw [ofList, hfold, drain_empty]
  simp

/-- Pop while the least key is within the bound: the elements in the order popped. -/
def popWhile (bound : κ) : ℕ → Q → List α × Q
  | 0, q => ([], q)
  | fuel + 1, q =>
    match pop q with
    | none => ([], q)
    | some (a, q') =>
      if key a ≤ bound then
        let (popped, rest) := popWhile bound fuel q'
        (a :: popped, rest)
      else ([], q)

/-- Pop all elements within the bound. -/
def popDue (bound : κ) (q : Q) : List α × Q := popWhile bound (drain q).length q

theorem popWhile_perm {bound : κ} {fuel : ℕ} {q : Q} (h : (drain q).length ≤ fuel) :
    (popWhile bound fuel q).1.Perm ((drain q).filter fun a => key a ≤ bound) ∧
      (drain (popWhile bound fuel q).2).Perm ((drain q).filter fun a => ¬ key a ≤ bound) := by
  induction fuel generalizing q with
  | zero =>
    have hempty : drain q = [] := List.length_eq_zero_iff.mp (by omega)
    simp [popWhile, hempty]
  | succ fuel ih =>
    unfold popWhile
    cases hpop : pop q with
    | none => simp [pop_none q hpop]
    | some top =>
      obtain ⟨a, q'⟩ := top
      obtain ⟨hperm, hleast⟩ := pop_some q a q' hpop
      by_cases hdue : key a ≤ bound
      · have hlength := hperm.length_eq
        rw [List.length_cons] at hlength
        obtain ⟨hpopped, hrest⟩ := ih (q := q') (by omega)
        simp only [hdue, if_true]
        constructor
        · refine (hpopped.cons a).trans ((hperm.filter _).trans ?_).symm
          rw [List.filter_cons_of_pos (by simpa using hdue)]
        · refine hrest.trans ((hperm.filter _).trans ?_).symm
          rw [List.filter_cons_of_neg (by simpa using hdue)]
      · -- the least key is beyond the bound, and so are all
        have hlate : ∀ b ∈ drain q, ¬ key b ≤ bound := fun b hb hle =>
          hdue ((hleast b hb).trans hle)
        simp only [hdue, if_false]
        constructor
        · rw [List.filter_eq_nil_iff.mpr (by simpa using hlate)]
        · rw [List.filter_eq_self.mpr (by simpa using hlate)]

/-- The elements within the bound are popped. -/
theorem popDue_perm {bound : κ} {q : Q} :
    (popDue bound q).1.Perm ((drain q).filter fun a => key a ≤ bound) :=
  (popWhile_perm le_rfl).1

/-- The others stay. -/
theorem popDue_rest_perm {bound : κ} {q : Q} :
    (drain (popDue bound q).2).Perm ((drain q).filter fun a => ¬ key a ≤ bound) :=
  (popWhile_perm le_rfl).2

theorem mem_popDue {bound : κ} {q : Q} {b : α} :
    b ∈ (popDue bound q).1 ↔ b ∈ drain q ∧ key b ≤ bound := by
  rw [popDue_perm.mem_iff, List.mem_filter, decide_eq_true_iff]

theorem mem_popDue_rest {bound : κ} {q : Q} {b : α} :
    b ∈ drain (popDue bound q).2 ↔ b ∈ drain q ∧ ¬ key b ≤ bound := by
  rw [popDue_rest_perm.mem_iff, List.mem_filter, decide_eq_true_iff]

theorem mem_drain_of_mem_popWhile {bound : κ} {fuel : ℕ} {q : Q} {b : α}
    (h : b ∈ (popWhile bound fuel q).1) : b ∈ drain q := by
  induction fuel generalizing q with
  | zero => exact absurd h List.not_mem_nil
  | succ fuel ih =>
    unfold popWhile at h
    cases hpop : pop q with
    | none => simp [hpop] at h
    | some top =>
      obtain ⟨a, q'⟩ := top
      have hmem := (pop_some q a q' hpop).1.mem_iff (a := b)
      simp only [hpop] at h
      split_ifs at h with hdue
      · rcases List.mem_cons.mp h with rfl | hlater
        · exact hmem.mpr List.mem_cons_self
        · exact hmem.mpr (List.mem_cons_of_mem _ (ih hlater))
      · exact absurd h List.not_mem_nil

/-- They are popped in ascending order of their keys. -/
theorem popWhile_sorted (bound : κ) (fuel : ℕ) (q : Q) :
    (popWhile bound fuel q).1.Pairwise (key · ≤ key ·) := by
  induction fuel generalizing q with
  | zero => exact List.Pairwise.nil
  | succ fuel ih =>
    unfold popWhile
    cases hpop : pop q with
    | none => exact List.Pairwise.nil
    | some top =>
      obtain ⟨a, q'⟩ := top
      obtain ⟨hperm, hleast⟩ := pop_some q a q' hpop
      by_cases hdue : key a ≤ bound
      · simp only [hdue, if_true]
        refine List.Pairwise.cons (fun b hb => hleast b ?_) (ih q')
        exact hperm.mem_iff.mpr (List.mem_cons_of_mem _ (mem_drain_of_mem_popWhile hb))
      · simp only [hdue, if_false]
        exact List.Pairwise.nil

theorem popDue_sorted (bound : κ) (q : Q) : (popDue bound q).1.Pairwise (key · ≤ key ·) :=
  popWhile_sorted bound _ q

end MinHeap

/-- The list of the elements in ascending order of their keys, as a priority queue. -/
structure SortedQueue {α κ : Type*} [LinearOrder κ] (key : α → κ) where
  elements : List α
  sorted : elements.Pairwise (key · ≤ key ·)

namespace SortedQueue

variable {α κ : Type*} [LinearOrder κ] {key : α → κ}

instance : Std.Total (fun a b : α => key a ≤ key b) := ⟨fun a b => le_total (key a) (key b)⟩

instance : IsTrans α (fun a b : α => key a ≤ key b) := ⟨fun _ _ _ => le_trans⟩

def push (q : SortedQueue key) (a : α) : SortedQueue key :=
  ⟨q.elements.orderedInsert (key · ≤ key ·) a, q.sorted.orderedInsert a q.elements⟩

def pop (q : SortedQueue key) : Option (α × SortedQueue key) :=
  match q with
  | ⟨[], _⟩ => none
  | ⟨a :: l, h⟩ => some (a, ⟨l, h.of_cons⟩)

instance : MinHeap (SortedQueue key) key where
  drain := elements
  empty := ⟨[], List.Pairwise.nil⟩
  push := push
  pop := pop
  drain_empty := rfl
  drain_push q a := List.perm_orderedInsert _ a q.elements
  pop_none := by
    rintro ⟨l, hl⟩ h
    cases l with
    | nil => rfl
    | cons a l => exact absurd h (by simp [pop])
  pop_some := by
    rintro ⟨l, hl⟩ a q' h
    cases l with
    | nil => exact absurd h (by simp [pop])
    | cons b l =>
      obtain ⟨rfl, rfl⟩ := Prod.mk.inj (Option.some.inj h)
      refine ⟨List.Perm.refl _, fun c hc => ?_⟩
      rcases List.mem_cons.mp hc with rfl | hc
      · exact le_rfl
      · exact List.rel_of_pairwise_cons hl hc

end SortedQueue

end Antegen
