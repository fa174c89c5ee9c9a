import Mathlib.Tactic

/-!
# The proleptic Gregorian calendar

Dates carry the proof that they exist. They are numbered by days, and the numbering
is a bijection that respects the lexicographic order of year, month and day. A civil
time adds hour, minute and second; its timestamp counts seconds from 1970 without
leap seconds, again in the lexicographic order.
-/
namespace Antegen.Calendar

/-! ## Lists of lengths -/

/-- The index of the block that position `n` falls into, and the offset in it. -/
def locate : List ℕ → ℕ → ℕ × ℕ
  | [], n => (0, n)
  | l :: ls, n =>
    if n < l then (0, n)
    else
      let p := locate ls (n - l)
      (p.1 + 1, p.2)

theorem locate_spec (ls : List ℕ) (n : ℕ) (hn : n < ls.sum) :
    (locate ls n).1 < ls.length ∧ (locate ls n).2 < ls.getD (locate ls n).1 0 ∧
      n = (ls.take (locate ls n).1).sum + (locate ls n).2 := by
  induction ls generalizing n with
  | nil => exact absurd hn (by simp)
  | cons l ls ih =>
    rw [List.sum_cons] at hn
    by_cases h : n < l
    · simp [locate, h]
    · obtain ⟨h1, h2, h3⟩ := ih (n - l) (by omega)
      refine ⟨?_, ?_, ?_⟩
      · simpa [locate, h] using h1
      · simpa [locate, h] using h2
      · simp only [locate, h, if_false, List.take_succ_cons, List.sum_cons]
        omega

/-! ## Years, months and days -/

def isLeap (y : ℤ) : Bool := decide (y % 4 = 0 ∧ (y % 100 ≠ 0 ∨ y % 400 = 0))

def daysInMonth (y : ℤ) : ℕ → ℕ
  | 2 => if isLeap y then 29 else 28
  | 4 => 30
  | 6 => 30
  | 9 => 30
  | 11 => 30
  | _ => 31

def monthLengths (y : ℤ) : List ℕ := (List.range 12).map fun i => daysInMonth y (i + 1)

def daysInYear (y : ℤ) : ℕ := if isLeap y then 366 else 365

/-- Days from the first of January of year one to that of year `y`. -/
def yearStart (y : ℤ) : ℤ := 365 * (y - 1) + (y - 1) / 4 - (y - 1) / 100 + (y - 1) / 400

/-- Days of the year before month `m`. -/
def monthStart (y : ℤ) (m : ℕ) : ℕ := ((monthLengths y).take (m - 1)).sum

structure Date where
  year : ℤ
  month : ℕ
  day : ℕ
  month_pos : 1 ≤ month
  month_le : month ≤ 12
  day_pos : 1 ≤ day
  day_le : day ≤ daysInMonth year month

theorem monthLengths_sum (y : ℤ) : (monthLengths y).sum = daysInYear y := by
  cases h : isLeap y <;>
    simp [monthLengths, List.range_succ, daysInMonth, daysInYear, h]

theorem daysInMonth_bounds (y : ℤ) (m : ℕ) : 28 ≤ daysInMonth y m ∧ daysInMonth y m ≤ 31 := by
  unfold daysInMonth
  split <;> (try split) <;> omega

theorem monthStart_succ (y : ℤ) {m : ℕ} (h1 : 1 ≤ m) (h12 : m ≤ 12) :
    monthStart y (m + 1) = monthStart y m + daysInMonth y m := by
  have hlen : m - 1 < (monthLengths y).length := by
    simp only [monthLengths, List.length_map, List.length_range]
    omega
  have hm : m - 1 + 1 = m := by omega
  rw [monthStart, monthStart, Nat.add_sub_cancel]
  conv_lhs => rw [← hm, List.take_add_one, List.getElem?_eq_getElem hlen]
  simp [monthLengths, hm]

theorem monthStart_mono (y : ℤ) {m m' : ℕ} (h1 : 1 ≤ m) (h : m < m') (h12 : m' ≤ 13) :
    monthStart y m + daysInMonth y m ≤ monthStart y m' := by
  induction m', h using Nat.le_induction with
  | base => rw [Nat.succ_eq_add_one, monthStart_succ y h1 (by omega)]
  | succ k hk ih =>
    have := ih (by omega)
    rw [monthStart_succ y (by omega) (by omega)]
    omega

theorem monthStart_last (y : ℤ) : monthStart y 13 = daysInYear y := by
  rw [monthStart, ← monthLengths_sum, List.take_of_length_le (by simp [monthLengths])]

theorem yearStart_succ (y : ℤ) : yearStart (y + 1) = yearStart y + daysInYear y := by
  unfold yearStart daysInYear isLeap
  simp only [decide_eq_true_eq]
  split_ifs <;> push_cast <;> omega

theorem yearStart_mono {y y' : ℤ} (h : y < y') : yearStart y + daysInYear y ≤ yearStart y' := by
  induction y', h using Int.leInduction with
  | base => rw [yearStart_succ]
  | succ k hk ih =>
    rw [yearStart_succ]
    omega

namespace Date

/-- Days since the first of January of year one. -/
def dayNumber (d : Date) : ℤ := yearStart d.year + monthStart d.year d.month + (d.day - 1 : ℕ)

/-- Sunday is 1. -/
def weekday (d : Date) : ℕ := ((d.dayNumber + 1) % 7).toNat + 1

/-- The lexicographic order of year, month and day as one number. -/
def monthKey (d : Date) : ℤ := d.year * 13 + d.month

def key (d : Date) : ℤ := d.monthKey * 32 + d.day

theorem day_lt (d : Date) : d.day < 32 := by
  have := daysInMonth_bounds d.year d.month
  have := d.day_le
  omega

theorem ext_key {d d' : Date} (h : d.key = d'.key) : d = d' := by
  have := d.day_lt
  have := d'.day_lt
  have := d.month_le
  have := d'.month_le
  unfold key monthKey at h
  have hy : d.year = d'.year := by omega
  have hm : d.month = d'.month := by omega
  have hd : d.day = d'.day := by omega
  cases d
  cases d'
  simp_all

/-- Within its year a date comes before the end of its month. -/
theorem dayNumber_lt_month (d : Date) :
    d.dayNumber < yearStart d.year + monthStart d.year d.month + daysInMonth d.year d.month := by
  have := d.day_le
  have := d.day_pos
  unfold dayNumber
  omega

theorem dayNumber_lt_year (d : Date) : d.dayNumber < yearStart d.year + daysInYear d.year := by
  have h1 := d.dayNumber_lt_month
  have h2 := monthStart_mono d.year d.month_pos (by have := d.month_le; omega : d.month < 13) le_rfl
  rw [monthStart_last] at h2
  omega

theorem yearStart_le_dayNumber (d : Date) : yearStart d.year ≤ d.dayNumber := by
  unfold dayNumber
  omega

theorem dayNumber_lt_of_key_lt {d d' : Date} (h : d.key < d'.key) : d.dayNumber < d'.dayNumber := by
  have hd := d.day_lt
  have hd' := d'.day_lt
  have hm := d.month_le
  have hm' := d'.month_le
  unfold key monthKey at h
  rcases lt_trichotomy d.year d'.year with hy | hy | hy
  · have h1 := d.dayNumber_lt_year
    have h2 := yearStart_mono hy
    have h3 := d'.yearStart_le_dayNumber
    omega
  · rcases lt_trichotomy d.month d'.month with hmm | hmm | hmm
    · have h1 := d.dayNumber_lt_month
      have h2 := monthStart_mono d.year d.month_pos hmm (by omega)
      unfold dayNumber at h1 ⊢
      rw [← hy]
      omega
    · have h1 := d.day_pos
      unfold dayNumber
      rw [← hy, ← hmm]
      omega
    · omega
  · omega

/-! ## From day numbers to dates -/

/-- The year of a day: cycles of 400, 100, 4 and single years. -/
def yearOf (n : ℤ) : ℤ :=
  let r := n % 146097
  let b := min (r / 36524) 3
  let r' := r - 36524 * b
  400 * (n / 146097) + 100 * b + 4 * (r' / 1461) + min (r' % 1461 / 365) 3 + 1

/-- A year by its place in the cycles. -/
theorem isLeap_cycles {a b c d : ℤ} (hb : 0 ≤ b ∧ b ≤ 3) (hc : 0 ≤ c ∧ c ≤ 24)
    (hd : 0 ≤ d ∧ d ≤ 3) :
    isLeap (400 * a + 100 * b + 4 * c + d + 1) = decide (d = 3 ∧ (c ≠ 24 ∨ b = 3)) := by
  have h4 : (400 * a + 100 * b + 4 * c + d + 1) % 4 = 0 ↔ d = 3 := by omega
  have h100 : (400 * a + 100 * b + 4 * c + d + 1) % 100 = 0 ↔ d = 3 ∧ c = 24 := by omega
  have h400 : (400 * a + 100 * b + 4 * c + d + 1) % 400 = 0 ↔ d = 3 ∧ c = 24 ∧ b = 3 := by omega
  rw [isLeap, decide_eq_decide, h4, ne_eq, h100, h400]
  tauto

theorem yearStart_cycles {a b c d : ℤ} (hb : 0 ≤ b ∧ b ≤ 3) (hc : 0 ≤ c ∧ c ≤ 24)
    (hd : 0 ≤ d ∧ d ≤ 3) :
    yearStart (400 * a + 100 * b + 4 * c + d + 1) =
      146097 * a + 36524 * b + 1461 * c + 365 * d := by
  have h4 : (400 * a + 100 * b + 4 * c + d + 1 - 1) / 4 = 100 * a + 25 * b + c := by omega
  have h100 : (400 * a + 100 * b + 4 * c + d + 1 - 1) / 100 = 4 * a + b := by omega
  have h400 : (400 * a + 100 * b + 4 * c + d + 1 - 1) / 400 = a := by omega
  rw [yearStart, h4, h100, h400]
  omega

theorem yearOf_bounds (n : ℤ) :
    yearStart (yearOf n) ≤ n ∧ n < yearStart (yearOf n) + daysInYear (yearOf n) := by
  obtain ⟨r, hr⟩ : ∃ r, r = n % 146097 := ⟨_, rfl⟩
  obtain ⟨b, hb⟩ : ∃ b, b = min (r / 36524) 3 := ⟨_, rfl⟩
  obtain ⟨c, hc⟩ : ∃ c, c = (r - 36524 * b) / 1461 := ⟨_, rfl⟩
  obtain ⟨d, hd⟩ : ∃ d, d = min ((r - 36524 * b) % 1461 / 365) 3 := ⟨_, rfl⟩
  have hy : yearOf n = 400 * (n / 146097) + 100 * b + 4 * c + d + 1 := by
    rw [yearOf, hc, hd, hb, hr]
  have hr0 : 0 ≤ r ∧ r < 146097 := by omega
  have hb' : 0 ≤ b ∧ b ≤ 3 ∧ 0 ≤ r - 36524 * b ∧ r - 36524 * b ≤ 36524 ∧
      (b < 3 → r - 36524 * b < 36524) := by omega
  have hc' : 0 ≤ c ∧ c ≤ 24 ∧ (r - 36524 * b) % 1461 = r - 36524 * b - 1461 * c := by omega
  have hd' : 0 ≤ d ∧ d ≤ 3 ∧ 365 * d ≤ r - 36524 * b - 1461 * c ∧
      (d < 3 → r - 36524 * b - 1461 * c < 365 * d + 365) ∧ r - 36524 * b - 1461 * c ≤ 1460 := by
    rw [hc'.2.2] at hd
    omega
  rw [hy, yearStart_cycles ⟨hb'.1, hb'.2.1⟩ ⟨hc'.1, hc'.2.1⟩ ⟨hd'.1, hd'.2.1⟩, daysInYear,
    isLeap_cycles ⟨hb'.1, hb'.2.1⟩ ⟨hc'.1, hc'.2.1⟩ ⟨hd'.1, hd'.2.1⟩]
  simp only [decide_eq_true_eq]
  clear hy hb hc hd
  split_ifs <;> push_cast <;> omega

/-- The date of a day number. -/
def ofDayNumber (n : ℤ) : Date :=
  have hlt : (n - yearStart (yearOf n)).toNat < (monthLengths (yearOf n)).sum := by
    have := yearOf_bounds n
    rw [monthLengths_sum]
    omega
  have hspec := locate_spec (monthLengths (yearOf n)) (n - yearStart (yearOf n)).toNat hlt
  have hlen : (locate (monthLengths (yearOf n)) (n - yearStart (yearOf n)).toNat).1 < 12 := by
    simpa [monthLengths] using hspec.1
  { year := yearOf n
    month := (locate (monthLengths (yearOf n)) (n - yearStart (yearOf n)).toNat).1 + 1
    day := (locate (monthLengths (yearOf n)) (n - yearStart (yearOf n)).toNat).2 + 1
    month_pos := Nat.le_add_left 1 _
    month_le := hlen
    day_pos := Nat.le_add_left 1 _
    day_le := by
      have hday := hspec.2.1
      rw [List.getD_eq_getElem?_getD, List.getElem?_eq_getElem hspec.1] at hday
      simpa [monthLengths] using hday }

theorem dayNumber_ofDayNumber (n : ℤ) : (ofDayNumber n).dayNumber = n := by
  have hb := yearOf_bounds n
  have hlt : (n - yearStart (yearOf n)).toNat < (monthLengths (yearOf n)).sum := by
    rw [monthLengths_sum]
    omega
  have hspec := (locate_spec (monthLengths (yearOf n)) (n - yearStart (yearOf n)).toNat hlt).2.2
  simp only [dayNumber, ofDayNumber, monthStart, Nat.add_sub_cancel]
  omega

end Date

/-! ## Civil times -/

structure Civil where
  date : Date
  hour : ℕ
  minute : ℕ
  second : ℕ
  hour_lt : hour < 24
  minute_lt : minute < 60
  second_lt : second < 60

/-- Day number of the first of January 1970. -/
def epochDay : ℤ := 719162

namespace Civil

/-- The lexicographic order of all six components as one number. -/
def hourKey (c : Civil) : ℤ := c.date.key * 24 + c.hour

def minuteKey (c : Civil) : ℤ := c.hourKey * 60 + c.minute

def key (c : Civil) : ℤ := c.minuteKey * 60 + c.second

def timestamp (c : Civil) : ℤ :=
  (c.date.dayNumber - epochDay) * 86400 + (c.hour * 3600 + c.minute * 60 + c.second : ℕ)

/-- The civil time of a timestamp. -/
def ofTimestamp (t : ℤ) : Civil where
  date := Date.ofDayNumber (t / 86400 + epochDay)
  hour := (t % 86400).toNat / 3600
  minute := (t % 86400).toNat % 3600 / 60
  second := (t % 86400).toNat % 60
  hour_lt := by omega
  minute_lt := by omega
  second_lt := by omega

theorem timestamp_ofTimestamp (t : ℤ) : (ofTimestamp t).timestamp = t := by
  simp only [timestamp, ofTimestamp, Date.dayNumber_ofDayNumber]
  omega

theorem timestamp_lt_iff {c c' : Civil} : c.timestamp < c'.timestamp ↔ c.key < c'.key := by
  have h1 := c.hour_lt
  have h2 := c.minute_lt
  have h3 := c.second_lt
  have h1' := c'.hour_lt
  have h2' := c'.minute_lt
  have h3' := c'.second_lt
  unfold timestamp key minuteKey hourKey
  rcases lt_trichotomy c.date.key c'.date.key with hk | hk | hk
  · have := Date.dayNumber_lt_of_key_lt hk
    omega
  · rw [Date.ext_key hk]
    omega
  · have := Date.dayNumber_lt_of_key_lt hk
    omega

theorem year_le_of_key_le {c c' : Civil} (h : c.key ≤ c'.key) : c.date.year ≤ c'.date.year := by
  have h1 := c.date.month_pos
  have h2 := c'.date.month_le
  have h3 := c'.date.day_lt
  have h4 := c'.hour_lt
  have h5 := c'.minute_lt
  have h6 := c'.second_lt
  unfold key minuteKey hourKey Date.key Date.monthKey at h
  omega

theorem ext_key {c c' : Civil} (h : c.key = c'.key) : c = c' := by
  have h1 := c.hour_lt
  have h2 := c.minute_lt
  have h3 := c.second_lt
  have h1' := c'.hour_lt
  have h2' := c'.minute_lt
  have h3' := c'.second_lt
  unfold key minuteKey hourKey at h
  have hd : c.date = c'.date := Date.ext_key (by omega)
  rw [hd] at h
  have hh : c.hour = c'.hour := by omega
  have hm : c.minute = c'.minute := by omega
  have hs : c.second = c'.second := by omega
  cases c
  cases c'
  simp_all

theorem timestamp_injective {c c' : Civil} (h : c.timestamp = c'.timestamp) : c = c' := by
  apply ext_key
  rcases lt_trichotomy c.key c'.key with hk | hk | hk
  · have := timestamp_lt_iff.mpr hk
    omega
  · exact hk
  · have := timestamp_lt_iff.mpr hk
    omega

theorem ofTimestamp_timestamp (c : Civil) : ofTimestamp c.timestamp = c :=
  timestamp_injective (timestamp_ofTimestamp _)

/-- The first second of a year. -/
def startOfYear (y : ℤ) : Civil where
  date := ⟨y, 1, 1, le_rfl, by decide, le_rfl, le_trans (by decide) (daysInMonth_bounds y 1).1⟩
  hour := 0
  minute := 0
  second := 0
  hour_lt := by decide
  minute_lt := by decide
  second_lt := by decide

theorem startOfYear_timestamp (y : ℤ) :
    (startOfYear y).timestamp = (yearStart y - epochDay) * 86400 := by
  simp [timestamp, startOfYear, Date.dayNumber, monthStart]

/-- The last second of a year. -/
def endOfYear (y : ℤ) : Civil where
  date := ⟨y, 12, 31, by decide, le_rfl, by decide, le_rfl⟩
  hour := 23
  minute := 59
  second := 59
  hour_lt := by decide
  minute_lt := by decide
  second_lt := by decide

theorem endOfYear_timestamp (y : ℤ) :
    (endOfYear y).timestamp + 1 = (startOfYear (y + 1)).timestamp := by
  have hdays : monthStart y 13 = monthStart y 12 + 31 := monthStart_succ y (by decide) le_rfl
  rw [monthStart_last] at hdays
  rw [startOfYear_timestamp, yearStart_succ]
  simp only [timestamp, endOfYear, Date.dayNumber]
  omega

/-- The next second is in the same year or starts another one. -/
theorem succ_year {c c' : Civil} (h : c'.timestamp = c.timestamp + 1) :
    c'.date.year = c.date.year ∨ c' = startOfYear c'.date.year := by
  by_cases hy : c'.date.year = c.date.year
  · exact Or.inl hy
  · right
    have hlt : c.date.year < c'.date.year := by
      have hle := year_le_of_key_le (timestamp_lt_iff.mp (by omega : c.timestamp < c'.timestamp)).le
      omega
    have h1 := c.date.dayNumber_lt_year
    have h2 := yearStart_mono hlt
    have h3 := c'.date.yearStart_le_dayNumber
    have h4 := c.hour_lt
    have h5 := c.minute_lt
    have h6 := c.second_lt
    apply timestamp_injective
    rw [startOfYear_timestamp]
    unfold timestamp epochDay at h ⊢
    omega

end Civil

end Antegen.Calendar
