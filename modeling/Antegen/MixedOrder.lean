import Mathlib.Data.List.Sort
import Mathlib.Order.Compare

/-!
# Comparison by two orders

Some elements have a key. Two of them are compared by their keys, and all other pairs by the
order of the elements themselves. The comparison is an order on a set if and only if the keys
in it are distinct and no element without a key lies between two elements on which the two
orders disagree. Then sorting does not depend on the order in which the elements come.
-/
namespace Antegen.MixedOrder

/-- A relation that is a total order on a set. -/
structure TotalOrderOn {α : Type*} (S : Set α) (le : α → α → Prop) : Prop where
  antisymm : ∀ a ∈ S, ∀ b ∈ S, le a b → le b a → a = b
  trans : ∀ a ∈ S, ∀ b ∈ S, ∀ c ∈ S, le a b → le b c → le a c
  total : ∀ a ∈ S, ∀ b ∈ S, le a b ∨ le b a

theorem TotalOrderOn.flip {α : Type*} {S : Set α} {le : α → α → Prop} (h : TotalOrderOn S le) :
    TotalOrderOn S fun a b => le b a where
  antisymm a ha b hb hab hba := h.antisymm a ha b hb hba hab
  trans a ha b hb c hc hab hbc := h.trans c hc b hb a ha hbc hab
  total a ha b hb := h.total b hb a ha

/-- Sorting by a total order on the elements puts them in order. -/
theorem TotalOrderOn.pairwise_mergeSort {α : Type*} {S : Set α} {le : α → α → Prop}
    [DecidableRel le] (h : TotalOrderOn S le) {l : List α} (hl : ∀ a ∈ l, a ∈ S) :
    (l.mergeSort fun a b => decide (le a b)).Pairwise le := by
  let inside : List S := l.attachWith (· ∈ S) hl
  have hinside : inside.map Subtype.val = l := List.attachWith_map_subtype_val hl
  have hmap : (inside.mergeSort fun a b => decide (le a.val b.val)).map Subtype.val =
      l.mergeSort fun a b => decide (le a b) := by
    conv_rhs => rw [← hinside]
    exact List.map_mergeSort fun a _ b _ => rfl
  have hsorted : (inside.mergeSort fun a b => decide (le a.val b.val)).Pairwise
      fun a b => decide (le a.val b.val) = true := by
    refine List.pairwise_mergeSort (fun a b c hab hbc => ?_) (fun a b => ?_) inside
    · rw [decide_eq_true_iff] at hab hbc ⊢
      exact h.trans a a.2 b b.2 c c.2 hab hbc
    · rw [Bool.or_eq_true, decide_eq_true_iff, decide_eq_true_iff]
      exact h.total a a.2 b b.2
  rw [← hmap, List.pairwise_map]
  exact hsorted.imp of_decide_eq_true

/-- In whatever order the elements come, they are sorted into the same list. -/
theorem TotalOrderOn.mergeSort_eq {α : Type*} {S : Set α} {le : α → α → Prop}
    [DecidableRel le] (h : TotalOrderOn S le) {l l' : List α} (hl : ∀ a ∈ l, a ∈ S)
    (hperm : l.Perm l') :
    (l.mergeSort fun a b => decide (le a b)) = l'.mergeSort fun a b => decide (le a b) := by
  have hl' : ∀ a ∈ l', a ∈ S := fun a ha => hl a (hperm.mem_iff.mpr ha)
  refine List.Perm.eq_of_pairwise (fun a b ha hb => ?_) (h.pairwise_mergeSort hl)
    (h.pairwise_mergeSort hl')
    ((List.mergeSort_perm l _).trans (hperm.trans (List.mergeSort_perm l' _).symm))
  rw [List.mem_mergeSort] at ha hb
  exact h.antisymm a (hl a ha) b (hl' b hb)

variable {α κ : Type*} [LinearOrder α] [LinearOrder κ]

def mixedCompare (key : α → Option κ) (a b : α) : Ordering :=
  match key a, key b with
  | some ka, some kb => compare ka kb
  | _, _ => compare a b

def Le (key : α → Option κ) (a b : α) : Prop := mixedCompare key a b ≠ .gt

instance (key : α → Option κ) (a b : α) : Decidable (Le key a b) :=
  inferInstanceAs (Decidable (_ ≠ _))

/-- Elements with one key are the same, and the text of an element without a key does not
stand between two elements with keys in the opposite order. -/
structure Consistent (key : α → Option κ) (S : Set α) : Prop where
  distinct : ∀ a ∈ S, ∀ b ∈ S, ∀ k, key a = some k → key b = some k → a = b
  between : ∀ a ∈ S, ∀ b ∈ S, ∀ c ∈ S, ∀ ka kb, key a = some ka → key b = some kb → ka < kb →
    key c = none → ¬ (b < c ∧ c < a)

variable {key : α → Option κ} {a b c : α}

theorem le_of_keys {ka kb : κ} (ha : key a = some ka) (hb : key b = some kb) :
    Le key a b ↔ ka ≤ kb := by
  unfold Le mixedCompare
  rw [ha, hb]
  exact compare_le_iff_le

theorem le_of_left_none (ha : key a = none) : Le key a b ↔ a ≤ b := by
  unfold Le mixedCompare
  rw [ha]
  exact compare_le_iff_le

theorem le_of_right_none (hb : key b = none) : Le key a b ↔ a ≤ b := by
  unfold Le mixedCompare
  rw [hb]
  cases key a with
  | none => exact compare_le_iff_le
  | some ka => exact compare_le_iff_le

theorem le_total (key : α → Option κ) (a b : α) : Le key a b ∨ Le key b a := by
  cases ha : key a with
  | none =>
    rw [le_of_left_none ha, le_of_right_none ha]
    exact LinearOrder.le_total a b
  | some ka =>
    cases hb : key b with
    | none =>
      rw [le_of_left_none hb, le_of_right_none hb]
      exact LinearOrder.le_total a b
    | some kb =>
      rw [le_of_keys ha hb, le_of_keys hb ha]
      exact LinearOrder.le_total ka kb

omit [LinearOrder α] [LinearOrder κ] in
/-- An element with a key is not one without. -/
theorem ne_of_key {k : κ} (ha : key a = some k) (hb : key b = none) : a ≠ b := by
  rintro rfl
  exact absurd (ha.symm.trans hb) (by simp)

variable {S : Set α}

theorem Consistent.antisymm (h : Consistent key S) (ha : a ∈ S) (hb : b ∈ S)
    (hab : Le key a b) (hba : Le key b a) : a = b := by
  cases hka : key a with
  | none =>
    rw [le_of_left_none hka] at hab
    rw [le_of_right_none hka] at hba
    exact le_antisymm hab hba
  | some ka =>
    cases hkb : key b with
    | none =>
      rw [le_of_right_none hkb] at hab
      rw [le_of_left_none hkb] at hba
      exact le_antisymm hab hba
    | some kb =>
      rw [le_of_keys hka hkb] at hab
      rw [le_of_keys hkb hka] at hba
      obtain rfl := le_antisymm hab hba
      exact h.distinct a ha b hb ka hka hkb

/-- Where the orders agree around it, an element without a key can be passed over. -/
theorem Consistent.not_between (h : Consistent key S) (ha : a ∈ S) (hb : b ∈ S) (hc : c ∈ S)
    {ka kb : κ} (hka : key a = some ka) (hkb : key b = some kb) (hkc : key c = none)
    (hle : ka ≤ kb) (hbc : b ≤ c) : a ≤ c := by
  by_contra hnot
  have hca : c < a := not_le.mp hnot
  have hbc' : b < c := lt_of_le_of_ne hbc (ne_of_key hkb hkc)
  have hlt : ka < kb := lt_of_le_of_ne hle fun heq => by
    subst heq
    exact (hbc'.trans hca).ne (h.distinct b hb a ha ka hkb hka)
  exact h.between a ha b hb c hc ka kb hka hkb hlt hkc ⟨hbc', hca⟩

theorem Consistent.trans (h : Consistent key S) (ha : a ∈ S) (hb : b ∈ S) (hc : c ∈ S)
    (hab : Le key a b) (hbc : Le key b c) : Le key a c := by
  cases hka : key a with
  | none =>
    rw [le_of_left_none hka] at hab ⊢
    cases hkb : key b with
    | none =>
      rw [le_of_left_none hkb] at hbc
      exact le_trans hab hbc
    | some kb =>
      cases hkc : key c with
      | none =>
        rw [le_of_right_none hkc] at hbc
        exact le_trans hab hbc
      | some kc =>
        -- from below the first element with a key to the second
        rw [le_of_keys hkb hkc] at hbc
        by_contra hnot
        have hba := h.not_between hb hc ha hkb hkc hka hbc (not_le.mp hnot).le
        exact ne_of_key hkb hka (le_antisymm hba hab)
  | some ka =>
    cases hkb : key b with
    | none =>
      rw [le_of_right_none hkb] at hab
      rw [le_of_left_none hkb] at hbc
      cases hkc : key c with
      | none =>
        rw [le_of_right_none hkc]
        exact le_trans hab hbc
      | some kc =>
        rw [le_of_keys hka hkc]
        by_contra hnot
        have hcb := h.not_between hc ha hb hkc hka hkb (not_le.mp hnot).le hab
        exact ne_of_key hkc hkb (le_antisymm hcb hbc)
    | some kb =>
      rw [le_of_keys hka hkb] at hab
      cases hkc : key c with
      | none =>
        rw [le_of_right_none hkc] at hbc ⊢
        exact h.not_between ha hb hc hka hkb hkc hab hbc
      | some kc =>
        rw [le_of_keys hkb hkc] at hbc
        rw [le_of_keys hka hkc]
        exact le_trans hab hbc

/-- The comparison is a total order on a set exactly if the two orders are consistent there. -/
theorem totalOrderOn_iff : TotalOrderOn S (Le key) ↔ Consistent key S := by
  constructor
  · intro h
    refine ⟨fun a ha b hb k hka hkb => ?_, fun a ha b hb c hc ka kb hka hkb hlt hkc => ?_⟩
    · have hle := (le_of_keys hka hkb).mpr le_rfl
      have hge := (le_of_keys hkb hka).mpr le_rfl
      exact h.antisymm a ha b hb hle hge
    · rintro ⟨hbc, hca⟩
      have hba := h.trans b hb c hc a ha ((le_of_right_none hkc).mpr hbc.le)
        ((le_of_left_none hkc).mpr hca.le)
      exact not_le.mpr hlt ((le_of_keys hkb hka).mp hba)
  · intro h
    exact ⟨fun a ha b hb => h.antisymm ha hb, fun a ha b hb c hc => h.trans ha hb hc,
      fun a _ b _ => le_total key a b⟩

end Antegen.MixedOrder
