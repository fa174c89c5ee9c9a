import Mathlib.Tactic

/-!
# Ordered sets

A set is the strictly increasing list of its elements, so it is walked in order.
Ranges are the walks between two bounds; a range between inverted bounds does not
exist. Every n-th element of a walk is again a walk.
-/
namespace Antegen

structure SortedSet (α : Type*) [LinearOrder α] where
  toList : List α
  sorted : toList.Pairwise (· < ·)

namespace SortedSet

variable {α : Type*} [LinearOrder α]

instance : Membership α (SortedSet α) := ⟨fun s a => a ∈ s.toList⟩

instance (a : α) (s : SortedSet α) : Decidable (a ∈ s) := inferInstanceAs (Decidable (a ∈ s.toList))

/-- Insertion at its place; what is there already is not inserted again. -/
def insertList (a : α) : List α → List α
  | [] => [a]
  | b :: l =>
    if a < b then a :: b :: l
    else if a = b then b :: l
    else b :: insertList a l

theorem mem_insertList {a b : α} {l : List α} : b ∈ insertList a l ↔ b = a ∨ b ∈ l := by
  induction l with
  | nil => simp [insertList]
  | cons c l ih =>
    unfold insertList
    split_ifs with h1 h2
    · simp
    · subst h2
      simp
    · simp only [List.mem_cons, ih]
      tauto

theorem insertList_sorted {a : α} {l : List α} (h : l.Pairwise (· < ·)) :
    (insertList a l).Pairwise (· < ·) := by
  induction l with
  | nil => simp [insertList]
  | cons c l ih =>
    obtain ⟨hc, hl⟩ := List.pairwise_cons.mp h
    unfold insertList
    split_ifs with h1 h2
    · refine List.pairwise_cons.mpr ⟨fun b hb => ?_, h⟩
      rcases List.mem_cons.mp hb with rfl | hb
      · exact h1
      · exact h1.trans (hc b hb)
    · exact h
    · refine List.pairwise_cons.mpr ⟨fun b hb => ?_, ih hl⟩
      rcases mem_insertList.mp hb with rfl | hb
      · exact lt_of_le_of_ne (not_lt.mp h1) (Ne.symm h2)
      · exact hc b hb

def empty : SortedSet α := ⟨[], List.Pairwise.nil⟩

def insert (a : α) (s : SortedSet α) : SortedSet α := ⟨insertList a s.toList, insertList_sorted s.sorted⟩

/-- The elements of a list, collected. -/
def ofList (l : List α) : SortedSet α := l.foldr insert empty

theorem ext {s t : SortedSet α} (h : s.toList = t.toList) : s = t := by
  cases s
  cases t
  simp_all

instance : DecidableEq (SortedSet α) := fun s t =>
  decidable_of_iff (s.toList = t.toList) ⟨ext, fun h => by rw [h]⟩

theorem mem_def {a : α} {s : SortedSet α} : a ∈ s ↔ a ∈ s.toList := Iff.rfl

@[simp] theorem not_mem_empty (a : α) : a ∉ (empty : SortedSet α) := by simp [mem_def, empty]

@[simp] theorem mem_insert {a b : α} {s : SortedSet α} : b ∈ s.insert a ↔ b = a ∨ b ∈ s :=
  mem_insertList

@[simp] theorem mem_ofList {a : α} {l : List α} : a ∈ ofList l ↔ a ∈ l := by
  induction l with
  | nil => simp [ofList]
  | cons b l ih => simpa [ofList] using or_congr_right ih

theorem ofList_toList {l : List α} (h : l.Pairwise (· < ·)) : (ofList l).toList = l := by
  induction l with
  | nil => rfl
  | cons b l ih =>
    obtain ⟨hb, hl⟩ := List.pairwise_cons.mp h
    have htail : (ofList (b :: l)).toList = insertList b (ofList l).toList := rfl
    rw [htail, ih hl]
    cases l with
    | nil => rfl
    | cons c l => rw [insertList, if_pos (hb c (by simp))]

/-! ## Ranges -/

/-- The walk from a lower bound on. -/
def above (s : SortedSet α) (lo : α) : List α := s.toList.filter fun a => lo ≤ a

/-- The walk up to an upper bound. -/
def below (s : SortedSet α) (hi : α) : List α := s.toList.filter fun a => a ≤ hi

/-- The walk between two bounds, if they are not inverted. -/
def range (s : SortedSet α) (lo hi : α) : Option (List α) :=
  if lo ≤ hi then some (s.toList.filter fun a => lo ≤ a ∧ a ≤ hi) else none

theorem mem_above {s : SortedSet α} {lo a : α} : a ∈ s.above lo ↔ a ∈ s ∧ lo ≤ a := by
  simp [above, mem_def]

theorem above_sorted (s : SortedSet α) (lo : α) : (s.above lo).Pairwise (· < ·) :=
  s.sorted.filter _

theorem mem_below {s : SortedSet α} {hi a : α} : a ∈ s.below hi ↔ a ∈ s ∧ a ≤ hi := by
  simp [below, mem_def]

theorem below_sorted (s : SortedSet α) (hi : α) : (s.below hi).Pairwise (· < ·) :=
  s.sorted.filter _

theorem range_eq_some {s : SortedSet α} {lo hi : α} (h : lo ≤ hi) :
    ∃ l, s.range lo hi = some l ∧ l.Pairwise (· < ·) ∧ ∀ a, a ∈ l ↔ a ∈ s ∧ lo ≤ a ∧ a ≤ hi := by
  refine ⟨_, if_pos h, s.sorted.filter _, fun a => ?_⟩
  simp [mem_def]

theorem range_eq_none {s : SortedSet α} {lo hi : α} (h : hi < lo) : s.range lo hi = none :=
  if_neg (not_le.mpr h)

/-- An ordered walk starts with the element that nothing comes before. -/
theorem eq_cons_of_first {β : Type*} {r : β → β → Prop} {l : List β} (h : l.Pairwise r) {b : β}
    (hb : b ∈ l) (hfirst : ∀ c ∈ l, ¬ r c b) : ∃ rest, l = b :: rest := by
  cases l with
  | nil => exact absurd hb (by simp)
  | cons c rest =>
    rcases List.mem_cons.mp hb with rfl | hmem
    · exact ⟨rest, rfl⟩
    · exact absurd ((List.pairwise_cons.mp h).1 b hmem) (hfirst c (by simp))

end SortedSet

/-! ## Every n-th element -/

/-- Skips `k` elements, takes one, and goes on with skipping `n - 1` before each. -/
def stepByFrom {α : Type*} (n : ℕ) : ℕ → List α → List α
  | _, [] => []
  | 0, a :: l => a :: stepByFrom n (n - 1) l
  | k + 1, _ :: l => stepByFrom n k l

def stepBy {α : Type*} (n : ℕ) (l : List α) : List α := stepByFrom n 0 l

theorem mem_stepByFrom_range' {n : ℕ} (hn : 0 < n) (k a len x : ℕ) :
    x ∈ stepByFrom n k (List.range' a len) ↔ ∃ j, x = a + k + j * n ∧ x < a + len := by
  induction len generalizing k a with
  | zero =>
    simp only [List.range'_zero, stepByFrom, List.not_mem_nil, false_iff, not_exists]
    intro j hj
    omega
  | succ len ih =>
    rw [List.range'_succ]
    cases k with
    | zero =>
      simp only [stepByFrom, List.mem_cons, ih]
      constructor
      · rintro (rfl | ⟨j, hj, hlt⟩)
        · exact ⟨0, by omega, by omega⟩
        · refine ⟨j + 1, ?_, by omega⟩
          rw [Nat.succ_mul]
          omega
      · rintro ⟨j, hj, hlt⟩
        cases j with
        | zero => exact Or.inl (by omega)
        | succ j =>
          rw [Nat.succ_mul] at hj
          exact Or.inr ⟨j, by omega, by omega⟩
    | succ k =>
      simp only [stepByFrom, ih]
      constructor
      · rintro ⟨j, hj, hlt⟩
        exact ⟨j, by omega, by omega⟩
      · rintro ⟨j, hj, hlt⟩
        exact ⟨j, by omega, by omega⟩

theorem mem_stepBy_range' {n : ℕ} (hn : 0 < n) (a len x : ℕ) :
    x ∈ stepBy n (List.range' a len) ↔ a ≤ x ∧ x < a + len ∧ n ∣ x - a := by
  rw [stepBy, mem_stepByFrom_range' hn]
  constructor
  · rintro ⟨j, rfl, hlt⟩
    exact ⟨by omega, hlt, ⟨j, by rw [Nat.mul_comm]; omega⟩⟩
  · rintro ⟨hle, hlt, j, hj⟩
    rw [Nat.mul_comm] at hj
    exact ⟨j, by omega, hlt⟩

end Antegen
