import Mathlib.Data.List.Sort
import Mathlib.Tactic

/-!
# Positions in a list sorted by rank

In a list sorted by a natural-number rank, the elements of rank below `r` are
exactly those at the positions below their own number. A table sorted by class
therefore needs only one counter for each class to recover the class of a
position.
-/
namespace Antegen.SortedRank

variable {α : Type*}

/-- Number of list entries whose rank is below `r`. -/
def below (rank : α → ℕ) (r : ℕ) (l : List α) : ℕ := l.countP (fun a => rank a < r)

theorem below_le_length (rank : α → ℕ) (r : ℕ) (l : List α) : below rank r l ≤ l.length :=
  List.countP_le_length

/-- Splitting off one class: rank `r` itself lies between two consecutive counts. -/
theorem below_succ (rank : α → ℕ) (r : ℕ) (l : List α) :
    below rank (r + 1) l = below rank r l + l.countP (fun a => rank a = r) := by
  induction l with
  | nil => rfl
  | cons a l ih =>
    simp only [below, List.countP_cons, decide_eq_true_eq] at ih ⊢
    rw [ih]
    split_ifs <;> omega

theorem lt_below_iff (rank : α → ℕ) (r : ℕ) (l : List α)
    (hs : l.Pairwise (fun a b => rank a ≤ rank b)) (i : ℕ) (hi : i < l.length) :
    i < below rank r l ↔ rank l[i] < r := by
  induction l generalizing i with
  | nil => exact absurd hi (by simp)
  | cons a l ih =>
    obtain ⟨ha, hl⟩ := List.pairwise_cons.mp hs
    by_cases har : rank a < r
    · have hc : below rank r (a :: l) = below rank r l + 1 := by
        simp [below, har]
      cases i with
      | zero => simp [hc, har]
      | succ i =>
        have := ih hl i (by simpa using hi)
        simp only [hc, List.getElem_cons_succ]
        omega
    · have hall : ∀ b ∈ a :: l, ¬ rank b < r := by
        intro b hb
        rcases List.mem_cons.mp hb with rfl | hb
        · exact har
        · have := ha b hb
          omega
      have hc : below rank r (a :: l) = 0 := by
        rw [below, List.countP_eq_zero]
        intro b hb
        simpa using hall b hb
      have hg := hall _ (List.getElem_mem hi)
      simp only [hc, Nat.not_lt_zero, false_iff]
      exact hg

end Antegen.SortedRank
