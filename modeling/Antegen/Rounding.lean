import Mathlib.Data.Int.Log
import Mathlib.Data.Rat.Floor
import Mathlib.Tactic

/-!
# Rounding to floating-point numbers

An operation on floating-point numbers rounds the exact result. Proofs use of a rounding only
that it keeps the order and small natural numbers, so that they hold of exact operations, too.
-/
namespace Antegen

/-- What the operations do to an exact result. -/
structure Rounding where
  round : ℚ → ℚ
  monotone : MonotoneOn round (Set.Ici 0)
  natCast : ∀ n : ℕ, n ≤ 2 ^ 53 → round n = n

namespace Rounding

/-! ## To nearest, ties to even -/

/-- The nearest integer, and half way between two of them the even one. -/
def nearestEven (x : ℚ) : ℤ :=
  if Int.fract x < 1 / 2 then ⌊x⌋
  else if 1 / 2 < Int.fract x then ⌊x⌋ + 1
  else if Even ⌊x⌋ then ⌊x⌋
  else ⌊x⌋ + 1

theorem nearestEven_intCast (n : ℤ) : nearestEven n = n := by
  unfold nearestEven
  rw [Int.fract_intCast, if_pos (by norm_num), Int.floor_intCast]

theorem floor_le_nearestEven (x : ℚ) : ⌊x⌋ ≤ nearestEven x := by
  unfold nearestEven
  split_ifs <;> omega

theorem nearestEven_le_floor_add_one (x : ℚ) : nearestEven x ≤ ⌊x⌋ + 1 := by
  unfold nearestEven
  split_ifs <;> omega

theorem nearestEven_monotone : Monotone nearestEven := by
  intro x y hle
  rcases (Int.floor_le_floor hle).lt_or_eq with hlt | heq
  · have hx := nearestEven_le_floor_add_one x
    have hy := floor_le_nearestEven y
    omega
  · have hfract : Int.fract x ≤ Int.fract y := by
      unfold Int.fract
      rw [heq]
      linarith
    unfold nearestEven
    rw [heq]
    split_ifs <;> first | omega | linarith

/-! ## Double precision -/

/-- The exponent of the last place: 53 digits, or as many as are left above the least number. -/
def lastPlace (x : ℚ) : ℤ := max (Int.log 2 |x| - 52) (-1074)

/-- The number of double precision, where it is finite. -/
def toBinary64 (x : ℚ) : ℚ := nearestEven (x / 2 ^ lastPlace x) * 2 ^ lastPlace x

section Binary64

variable {x y : ℚ} {k : ℤ}

theorem zpow_two_pos (e : ℤ) : (0 : ℚ) < 2 ^ e := zpow_pos (by norm_num) e

theorem exists_zpow_eq {e e' : ℤ} (h : e ≤ e') : ∃ k : ℤ, (2 : ℚ) ^ e' = k * 2 ^ e := by
  obtain ⟨n, rfl⟩ := Int.le.dest h
  refine ⟨2 ^ n, ?_⟩
  push_cast
  rw [zpow_add₀ (by norm_num), zpow_natCast, mul_comm]

/-- A number below, with no smaller places, stays below. -/
theorem le_toBinary64 (h : k * 2 ^ lastPlace x ≤ x) : k * 2 ^ lastPlace x ≤ toBinary64 x := by
  have hpos := zpow_two_pos (lastPlace x)
  have hle : (k : ℚ) ≤ x / 2 ^ lastPlace x := (le_div_iff₀ hpos).mpr h
  have hround := nearestEven_monotone hle
  rw [nearestEven_intCast] at hround
  exact mul_le_mul_of_nonneg_right (by exact_mod_cast hround) hpos.le

theorem toBinary64_le (h : x ≤ k * 2 ^ lastPlace x) : toBinary64 x ≤ k * 2 ^ lastPlace x := by
  have hpos := zpow_two_pos (lastPlace x)
  have hle : x / 2 ^ lastPlace x ≤ (k : ℚ) := (div_le_iff₀ hpos).mpr h
  have hround := nearestEven_monotone hle
  rw [nearestEven_intCast] at hround
  exact mul_le_mul_of_nonneg_right (by exact_mod_cast hround) hpos.le

/-- What has no smaller places is kept. -/
theorem toBinary64_of_eq (h : x = k * 2 ^ lastPlace x) : toBinary64 x = x := by
  have hlow := le_toBinary64 h.ge
  have hhigh := toBinary64_le h.le
  rw [← h] at hlow hhigh
  exact le_antisymm hhigh hlow

theorem toBinary64_nonneg (h : 0 ≤ x) : 0 ≤ toBinary64 x := by
  have hzero := le_toBinary64 (k := 0) (x := x) (by simpa using h)
  simpa using hzero

theorem toBinary64_zero : toBinary64 0 = 0 := toBinary64_of_eq (k := 0) (by simp)

theorem lastPlace_le (hx : 0 < x) (h : x ≤ y) : lastPlace x ≤ lastPlace y := by
  have hlog := Int.log_mono_right (b := 2) hx h
  unfold lastPlace
  rw [abs_of_pos hx, abs_of_pos (hx.trans_le h)]
  omega

/-- Between numbers with different last places there is a power of two. -/
theorem toBinary64_le_of_lt (hx : 0 < x) (h : x ≤ y) (hlt : lastPlace x < lastPlace y) :
    toBinary64 x ≤ toBinary64 y := by
  have hy : 0 < y := hx.trans_le h
  have hbelow := Int.lt_zpow_succ_log_self (b := 2) (by norm_num) x
  have habove := Int.zpow_log_le_self (b := 2) (by norm_num) hy
  have hplace : lastPlace y = Int.log 2 y - 52 := by
    unfold lastPlace at hlt ⊢
    rw [abs_of_pos hy] at hlt ⊢
    omega
  have hlog : Int.log 2 x + 1 ≤ Int.log 2 y := by
    have hleast : Int.log 2 |x| - 52 ≤ lastPlace x := le_max_left _ _
    rw [abs_of_pos hx] at hleast
    omega
  push_cast at hbelow habove
  have hxpow : x ≤ 2 ^ Int.log 2 y :=
    hbelow.le.trans (zpow_le_zpow_right₀ (by norm_num) hlog)
  -- the power of two is a number with the last place of either
  obtain ⟨m, hm⟩ := exists_zpow_eq (by omega : lastPlace x ≤ Int.log 2 y)
  obtain ⟨n, hn⟩ := exists_zpow_eq (by omega : lastPlace y ≤ Int.log 2 y)
  calc toBinary64 x ≤ m * 2 ^ lastPlace x := toBinary64_le (hm ▸ hxpow)
    _ = n * 2 ^ lastPlace y := hm.symm.trans hn
    _ ≤ toBinary64 y := le_toBinary64 (hn ▸ habove)

theorem toBinary64_monotoneOn : MonotoneOn toBinary64 (Set.Ici 0) := by
  intro x hx y _ hle
  rcases (Set.mem_Ici.mp hx).lt_or_eq with hpos | rfl
  · rcases (lastPlace_le hpos hle).lt_or_eq with hlt | heq
    · exact toBinary64_le_of_lt hpos hle hlt
    · have hscale := zpow_two_pos (lastPlace y)
      have hround := nearestEven_monotone (div_le_div_of_nonneg_right hle hscale.le)
      unfold toBinary64
      rw [heq]
      exact mul_le_mul_of_nonneg_right (by exact_mod_cast hround) hscale.le
  · rw [toBinary64_zero]
    exact toBinary64_nonneg hle

theorem toBinary64_natCast (n : ℕ) (h : n ≤ 2 ^ 53) : toBinary64 n = n := by
  rcases h.lt_or_eq with hlt | rfl
  · have hplace : lastPlace n ≤ 0 := by
      have hlog : Int.log 2 (n : ℚ) ≤ 52 := by
        rw [Int.log_natCast]
        exact_mod_cast Nat.le_of_lt_succ (Nat.log_lt_of_lt_pow' (by norm_num) hlt)
      unfold lastPlace
      rw [Nat.abs_cast]
      omega
    obtain ⟨e, he⟩ := Int.eq_ofNat_of_zero_le (neg_nonneg.mpr hplace)
    refine toBinary64_of_eq (k := n * 2 ^ e) ?_
    rw [show lastPlace n = -(e : ℤ) by omega, zpow_neg, zpow_natCast]
    push_cast
    field_simp
  · refine toBinary64_of_eq (k := 2 ^ 52) ?_
    have hplace : lastPlace ((2 ^ 53 : ℕ) : ℚ) = 1 := by decide +kernel
    rw [hplace]
    norm_num

end Binary64

/-- No rounding at all. -/
def exact : Rounding := ⟨id, monotone_id.monotoneOn _, fun _ _ => rfl⟩

def binary64 : Rounding := ⟨toBinary64, toBinary64_monotoneOn, toBinary64_natCast⟩

/-! ## Bounds -/

section Bounds

variable (f : Rounding) {x y : ℚ}

end Bounds

end Rounding

end Antegen
