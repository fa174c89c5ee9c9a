import Antegen.CronLeast
import Antegen.Enumeration

/-!
# When the search is exact

The bounds of a search are those of the second after the given instant. If the schedule
has the year of that second, or the second is the first of its year, they are bounds
for the next moment, and the search and the iterator over it miss nothing. Otherwise
the bounds are carried into a later year, where they do not belong.
-/
namespace Antegen.Cron

open Calendar

namespace DateTime

theorem civil_timestamp (t : DateTime) : t.civil.timestamp = t.timestamp :=
  Civil.timestamp_ofTimestamp t.timestamp

theorem year_bounds (t : DateTime) : -262143 ≤ t.year ∧ t.year ≤ 262142 := by
  have hts := t.civil_timestamp
  have hmin := t.min_le
  have hmax := t.le_max
  have h1 := t.civil.date.yearStart_le_dayNumber
  have h2 := t.civil.date.dayNumber_lt_year
  have hh := t.civil.hour_lt
  have hm := t.civil.minute_lt
  have hs := t.civil.second_lt
  have hlow : yearStart (-262143) = -95746130 := by decide
  have hhigh : yearStart 262143 = 95745399 := by decide
  unfold Civil.timestamp epochDay at hts
  unfold minTimestamp at hmin
  unfold maxTimestamp at hmax
  unfold year
  constructor
  · by_contra hlt
    have hle : yearStart t.civil.date.year + daysInYear t.civil.date.year ≤ yearStart (-262143) :=
      yearStart_mono (by omega)
    omega
  · by_contra hlt
    have hle : yearStart 262143 ≤ yearStart t.civil.date.year := yearStart_le (by omega)
    omega

theorem addSecond_timestamp {t d : DateTime} (h : t.addSecond = .ok d) :
    d.timestamp = t.timestamp + 1 := by
  unfold addSecond at h
  rw [ofOption_eq_ok, fromTimestamp] at h
  split_ifs at h
  · rw [← Option.some.inj h]
  · rw [← Option.some.inj h]

/-- Whole seconds after an instant are those from the next second on. -/
theorem before_iff {t d c : DateTime} (hd : t.addSecond = .ok d) (hc : c.nanos = 0) :
    t.Before c ↔ d.civil.key ≤ c.civil.key := by
  have hts := addSecond_timestamp hd
  rw [← not_lt, ← Civil.timestamp_lt_iff, civil_timestamp, civil_timestamp, hts, Before, hc]
  omega

theorem before_iff_key {t c : DateTime} (ht : t.nanos = 0) (hc : c.nanos = 0) :
    t.Before c ↔ t.civil.key < c.civil.key := by
  rw [← Civil.timestamp_lt_iff, civil_timestamp, civil_timestamp, Before, ht, hc]
  omega

theorem ext_civil {t c : DateTime} (ht : t.nanos = 0) (hc : c.nanos = 0)
    (h : t.civil.key = c.civil.key) : t = c := by
  have hts := congrArg Civil.timestamp (Civil.ext_key h)
  rw [civil_timestamp, civil_timestamp] at hts
  cases t
  cases c
  simp_all

end DateTime

/-! ## Occurrences -/

theorem asU32_mem {s : ScheduleFields} (hs : s.WellFormed) (t : DateTime) :
    asU32 t.year ∈ s.years.ordinals ↔ ∃ y ∈ s.years.ordinals, t.year = y := by
  have hb := t.year_bounds
  constructor
  · intro h
    have hmax : asU32 t.year ≤ 2100 := ((hs .years).supported _ h).2
    refine ⟨_, h, ?_⟩
    unfold asU32 at hmax ⊢
    omega
  · rintro ⟨y, hy, hty⟩
    have hmax : y ≤ 2100 := ((hs .years).supported y hy).2
    have heq : asU32 t.year = y := by
      unfold asU32
      omega
    rw [heq]
    exact hy

theorem includes_iff {s : Schedule} (hs : s.fields.WellFormed) (t : DateTime) :
    s.includes t = true ↔ Matches s.fields t.civil := by
  simp only [Schedule.includes, FieldValue.includes, Bool.and_eq_true, decide_eq_true_eq,
    asU32_mem hs]
  constructor
  · rintro ⟨⟨⟨⟨⟨⟨hy, hm⟩, hw⟩, hd⟩, hh⟩, hmin⟩, hsec⟩
    exact ⟨hy, hm, hd, hh, hmin, hsec, hw⟩
  · rintro ⟨hy, hm, hd, hh, hmin, hsec, hw⟩
    exact ⟨⟨⟨⟨⟨⟨hy, hm⟩, hw⟩, hd⟩, hh⟩, hmin⟩, hsec⟩

theorem Matches.year_bounds {s : ScheduleFields} (hs : s.WellFormed) {c : Civil}
    (h : Matches s c) : 1970 ≤ c.date.year ∧ c.date.year ≤ 2100 := by
  obtain ⟨y, hy, hcy⟩ := h.year
  have h1 : 1970 ≤ y := ((hs .years).supported y hy).1
  have h2 : y ≤ 2100 := ((hs .years).supported y hy).2
  omega

/-- Every selected civil time is an instant. -/
theorem Matches.instant {s : ScheduleFields} (hs : s.WellFormed) {c : Civil} (h : Matches s c) :
    ∃ t : DateTime, t.nanos = 0 ∧ t.civil = c := by
  obtain ⟨h1, h2⟩ := h.year_bounds hs
  obtain ⟨t, -, hciv, hnanos⟩ := withYmdAndHms_civil c h1 h2
  exact ⟨t, hnanos, hciv⟩

namespace Schedule

/-- A whole second after the given instant that the schedule includes. -/
def Occurs (s : Schedule) (after t : DateTime) : Prop :=
  t.nanos = 0 ∧ after.Before t ∧ s.includes t = true

/-- The first of the instants in question, or none if there are none. -/
def IsFirst (P : DateTime → Prop) : Option DateTime → Prop
  | none => ∀ t, ¬ P t
  | some t => P t ∧ ∀ t', P t' → t' = t ∨ t.Before t'

end Schedule

/-- Least moments are first instants. -/
theorem LeastOf.isFirst {s : Schedule} (hs : s.fields.WellFormed) {Q : Civil → Prop}
    {P : DateTime → Prop} {T : Civil → Prop}
    (hP : ∀ t, P t ↔ t.nanos = 0 ∧ s.includes t = true ∧ Q t.civil)
    (hT : ∀ c, T c ↔ Matches s.fields c ∧ Q c) {r : Option DateTime} (h : LeastOf T r) :
    Schedule.IsFirst P r := by
  cases r with
  | none =>
    intro t ht
    obtain ⟨-, hinc, hq⟩ := (hP t).mp ht
    exact h t.civil ((hT _).mpr ⟨(includes_iff hs t).mp hinc, hq⟩)
  | some t =>
    obtain ⟨hnanos, ht, hleast⟩ := h
    obtain ⟨hm, hq⟩ := (hT _).mp ht
    refine ⟨(hP t).mpr ⟨hnanos, (includes_iff hs t).mpr hm, hq⟩, fun t' ht' => ?_⟩
    obtain ⟨hnanos', hinc', hq'⟩ := (hP t').mp ht'
    have hle := hleast t'.civil ((hT _).mpr ⟨(includes_iff hs t').mp hinc', hq'⟩)
    rcases hle.lt_or_eq with hlt | heq
    · exact Or.inr ((DateTime.before_iff_key hnanos hnanos').mpr hlt)
    · exact Or.inl (DateTime.ext_civil hnanos hnanos' heq).symm

/-! ## Searches on their bounds -/

/-- The first second of a year. -/
def DateTime.StartsYear (t : DateTime) : Prop :=
  t.month = 1 ∧ t.day = 1 ∧ t.hour = 0 ∧ t.minute = 0 ∧ t.second = 0

/-- The bounds of the search are those of the next moment: the schedule has the year, or
the second is the first of its year. -/
def OnBounds (s : ScheduleFields) (d : DateTime) : Prop :=
  asU32 d.year ∈ s.years.ordinals ∨ (0 ≤ d.year ∧ d.StartsYear)

theorem asU32_of_nonneg {t : DateTime} (h : 0 ≤ t.year) : (asU32 t.year : ℤ) = t.year := by
  have hb := t.year_bounds
  unfold asU32
  omega

theorem OnBounds.year_nonneg {s : ScheduleFields} (hs : s.WellFormed) {d : DateTime}
    (h : OnBounds s d) : 0 ≤ d.year := by
  rcases h with h | h
  · obtain ⟨y, -, hy⟩ := (asU32_mem hs d).mp h
    omega
  · exact h.1

theorem exists_firstYear {s : ScheduleFields} {d : DateTime}
    (h : ∃ y ∈ s.years.ordinals, asU32 d.year ≤ y) : ∃ Y, FirstYear s d Y := by
  classical
  obtain ⟨y, hy, hle⟩ := h
  have hex : ∃ n, n ∈ s.years.ordinals ∧ asU32 d.year ≤ n := ⟨y, hy, hle⟩
  refine ⟨Nat.find hex, (Nat.find_spec hex).1, (Nat.find_spec hex).2, fun n hn hle' => ?_⟩
  exact Nat.find_min' hex ⟨hn, hle'⟩

theorem civil_key_eq (d : DateTime) :
    d.civil.key = ((((d.year * 13 + d.month) * 32 + d.day) * 24 + d.hour) * 60 + d.minute) * 60 +
      d.second := rfl

theorem bound_eq (d : DateTime) (Y : ℕ) :
    bound d Y = (((((Y : ℤ) * 13 + d.month) * 32 + d.day) * 24 + d.hour) * 60 + d.minute) * 60 +
      d.second := rfl

/-- A moment from an instant on is in a year of the schedule from that of the instant on. -/
theorem Matches.year_ge {s : ScheduleFields} {c : Civil} (h : Matches s c) {d : DateTime}
    (hpos : 0 ≤ d.year) (hkey : d.civil.key ≤ c.key) :
    ∃ y ∈ s.years.ordinals, c.date.year = y ∧ asU32 d.year ≤ y := by
  have hcast := asU32_of_nonneg hpos
  obtain ⟨y, hy, hcy⟩ := h.year
  have hyears := Civil.year_le_of_key_le hkey
  have hdy : d.civil.date.year = d.year := rfl
  exact ⟨y, hy, hcy, by omega⟩

/-- On its bounds a search looks for exactly the moments from the initial second on. -/
theorem OnBounds.target_iff {s : ScheduleFields} (hs : s.WellFormed) {d : DateTime} {Y : ℕ}
    (h : OnBounds s d) (hY : FirstYear s d Y) (c : Civil) :
    Target s d Y c ↔ Matches s c ∧ d.civil.key ≤ c.key := by
  have hpos := asU32_of_nonneg (h.year_nonneg hs)
  have hfirst := hY.2.1
  rcases h with h | ⟨h0, h1, h2, h3, h4, h5⟩
  · have hle := hY.2.2 _ h le_rfl
    have hYd : (Y : ℤ) = d.year := by omega
    rw [Target, bound_eq, civil_key_eq, hYd]
  · constructor
    · intro hc
      refine ⟨hc.1, le_trans ?_ hc.2⟩
      rw [bound_eq, civil_key_eq]
      omega
    · rintro ⟨hm, hc⟩
      refine ⟨hm, ?_⟩
      obtain ⟨y, hy, hcy, hyear⟩ := hm.year_ge h0 hc
      have hYy := hY.2.2 y hy hyear
      have hmonth := c.date.month_pos
      have hday := c.date.day_pos
      unfold Civil.key Civil.minuteKey Civil.hourKey Date.key Date.monthKey
      rw [bound_eq]
      omega

theorem OnBounds.fits {s : ScheduleFields} (hs : s.WellFormed) {d : DateTime} {Y : ℕ}
    (h : OnBounds s d) (hY : FirstYear s d Y) : d.day ≤ daysInMonth d.month Y := by
  have hpos := asU32_of_nonneg (h.year_nonneg hs)
  rcases h with h | ⟨-, -, h2, -⟩
  · have hle := hY.2.2 _ h le_rfl
    have hge := hY.2.1
    have hYd : (Y : ℤ) = d.year := by omega
    rw [daysInMonth_eq, hYd]
    exact d.civil.date.day_le
  · have hdays := daysInMonth_bounds Y d.month
    rw [daysInMonth_eq, h2]
    omega

theorem nextAfter_exact {s : Schedule} (hs : s.fields.WellFormed) {after d : DateTime}
    (hd : after.addSecond = .ok d) (h : OnBounds s.fields d) :
    ∃ r, s.nextAfter after = .ok r ∧ Schedule.IsFirst (s.Occurs after) r := by
  have hP : ∀ t, s.Occurs after t ↔
      t.nanos = 0 ∧ s.includes t = true ∧ d.civil.key ≤ t.civil.key := by
    intro t
    constructor
    · rintro ⟨h1, h2, h3⟩
      exact ⟨h1, h3, (DateTime.before_iff hd h1).mp h2⟩
    · rintro ⟨h1, h2, h3⟩
      exact ⟨h1, (DateTime.before_iff hd h1).mpr h3, h2⟩
  by_cases hex : ∃ y ∈ s.fields.years.ordinals, asU32 d.year ≤ y
  · obtain ⟨Y, hY⟩ := exists_firstYear hex
    obtain ⟨r, hr, hleast⟩ := nextAfter_leastOf hs hd hY fun _ => h.fits hs hY
    exact ⟨r, hr, hleast.isFirst hs hP (h.target_iff hs hY)⟩
  · have hlt : ∀ y ∈ s.fields.years.ordinals, y < asU32 d.year := by
      intro y hy
      by_contra hge
      exact hex ⟨y, hy, not_lt.mp hge⟩
    refine ⟨none, nextAfter_of_no_year hd hlt, fun t ht => ?_⟩
    obtain ⟨-, hinc, hkey⟩ := (hP t).mp ht
    obtain ⟨y, hy, -, hyear⟩ := ((includes_iff hs t).mp hinc).year_ge (h.year_nonneg hs) hkey
    exact absurd hyear (not_le.mpr (hlt y hy))

/-! ## The iterator -/

/-- A found instant is followed by one that is on the bounds again. -/
theorem onBounds_succ {s : Schedule} (hs : s.fields.WellFormed) {t : DateTime}
    (ht : s.includes t = true) : ∃ d, t.addSecond = .ok d ∧ OnBounds s.fields d := by
  have hm := (includes_iff hs t).mp ht
  obtain ⟨h1, h2⟩ := hm.year_bounds hs
  have h3 := t.civil.date.dayNumber_lt_year
  have h4 : yearStart (t.civil.date.year + 1) ≤ yearStart 2101 := yearStart_le (by omega)
  have h5 : yearStart 2101 = 767009 := by decide
  rw [yearStart_succ] at h4
  have hts := t.civil_timestamp
  have hh := t.civil.hour_lt
  have hmin := t.civil.minute_lt
  have hsec := t.civil.second_lt
  have hlow := t.min_le
  have hnanos := t.nanos_lt
  have hrange : (minTimestamp ≤ t.timestamp + 1 ∧ t.timestamp + 1 ≤ maxTimestamp) ∧
      (if 1000000000 ≤ t.nanos then t.nanos - 1000000000 else t.nanos) < 2000000000 := by
    refine ⟨⟨by omega, ?_⟩, by split_ifs <;> omega⟩
    unfold Civil.timestamp epochDay at hts
    unfold maxTimestamp
    omega
  refine ⟨⟨t.timestamp + 1, _, hrange.1.1, hrange.1.2, hrange.2⟩, ?_, ?_⟩
  · rw [DateTime.addSecond, DateTime.fromTimestamp, dif_pos hrange]
    rfl
  · obtain ⟨d, hd⟩ : ∃ d : DateTime, d = ⟨t.timestamp + 1, _, hrange.1.1, hrange.1.2, hrange.2⟩ :=
      ⟨_, rfl⟩
    rw [← hd]
    have hsucc : d.civil.timestamp = t.civil.timestamp + 1 := by
      rw [d.civil_timestamp, t.civil_timestamp, hd]
    rcases Civil.succ_year hsucc with hyear | hstart
    · left
      obtain ⟨y, hy, hty⟩ := hm.year
      exact (asU32_mem hs d).mpr ⟨y, hy, hyear.trans hty⟩
    · right
      have hle := Civil.year_le_of_key_le
        (Civil.timestamp_lt_iff.mp (by omega : t.civil.timestamp < d.civil.timestamp)).le
      refine ⟨by unfold DateTime.year; omega, ?_⟩
      unfold DateTime.StartsYear DateTime.month DateTime.day DateTime.hour DateTime.minute
        DateTime.second
      rw [hstart]
      exact ⟨rfl, rfl, rfl, rfl, rfl⟩

/-- The first items of an iterator; fewer if it ends before. -/
def ScheduleIterator.take : ℕ → ScheduleIterator → Result (List DateTime)
  | 0, _ => .ok []
  | n + 1, it => do
    let (r, it) ← it.next
    match r with
    | none => pure []
    | some t => do
      let l ← take n it
      pure (t :: l)

theorem DateTime.Before.trans {t t' t'' : DateTime} (h : t.Before t') (h' : t'.Before t'') :
    t.Before t'' := by
  unfold DateTime.Before at *
  omega

/-- The iterator goes on from the instant it found last. -/
theorem take_eq_walk (s : Schedule) (n : ℕ) (after : DateTime) :
    (s.after after).take n = Enumeration.walk s.nextAfter n after := by
  induction n generalizing after with
  | zero => rfl
  | succ n ih =>
    cases hr : s.nextAfter after with
    | error e =>
      simp [ScheduleIterator.take, ScheduleIterator.next, Schedule.after, Enumeration.walk, hr,
        bind, Except.bind]
    | ok r =>
      cases r with
      | none =>
        rw [Enumeration.walk_none hr]
        simp [ScheduleIterator.take, ScheduleIterator.next, Schedule.after, hr, bind, Except.bind,
          pure, Except.pure]
      | some t =>
        have hrest : ScheduleIterator.take n ⟨false, s, t⟩ = Enumeration.walk s.nextAfter n t := ih t
        simp [ScheduleIterator.take, ScheduleIterator.next, Schedule.after, Enumeration.walk, hr,
          bind, Except.bind, pure, Except.pure, hrest]

namespace Schedule

/-- A whole second that the schedule includes. -/
def Selects (s : Schedule) (t : DateTime) : Prop := t.nanos = 0 ∧ s.includes t = true

theorem IsFirst.first {s : Schedule} {after : DateTime} {r : Option DateTime}
    (h : IsFirst (s.Occurs after) r) : Enumeration.First DateTime.Before s.Selects after r := by
  cases r with
  | none => exact fun t ht hafter => h t ⟨ht.1, hafter, ht.2⟩
  | some t =>
    obtain ⟨⟨hnanos, hafter, hinc⟩, hleast⟩ := h
    exact ⟨⟨hnanos, hinc⟩, hafter, fun t' ht' h' => hleast t' ⟨ht'.1, h', ht'.2⟩⟩

end Schedule

/-- The run lemma of the iterator: its first items are the first occurrences, in order. -/
theorem take_exact {s : Schedule} (hs : s.fields.WellFormed) (n : ℕ) {after d : DateTime}
    (hd : after.addSecond = .ok d) (h : OnBounds s.fields d) :
    ∃ l, (s.after after).take n = .ok l ∧ l.Pairwise DateTime.Before ∧
      (∀ t ∈ l, s.Occurs after t) ∧
      ∀ t, s.Occurs after t → t ∈ l ∨ (l.length = n ∧ ∀ t' ∈ l, t'.Before t) := by
  have hstep : ∀ a, (∃ d, a.addSecond = .ok d ∧ OnBounds s.fields d) →
      ∃ r, s.nextAfter a = .ok r ∧ Enumeration.First DateTime.Before s.Selects a r ∧
        ∀ t, r = some t → ∃ d, t.addSecond = .ok d ∧ OnBounds s.fields d := by
    rintro a ⟨d, hd, h⟩
    obtain ⟨r, hr, hfirst⟩ := nextAfter_exact hs hd h
    refine ⟨r, hr, hfirst.first, ?_⟩
    rintro t rfl
    exact onBounds_succ hs hfirst.1.2.2
  obtain ⟨l, hl, hsorted, hmem, hall⟩ :=
    Enumeration.walk_exact (R := DateTime.Before) (fun _ _ _ h h' => h.trans h') hstep n ⟨d, hd, h⟩
  refine ⟨l, (take_eq_walk s n after).trans hl, hsorted, fun t ht => ?_, fun t ht => ?_⟩
  · obtain ⟨⟨hnanos, hinc⟩, hafter⟩ := hmem t ht
    exact ⟨hnanos, hafter, hinc⟩
  · exact hall t ⟨ht.1, ht.2.2⟩ ht.2.1

/-- For every parsed schedule and every instant whose next second is in a year of the
schedule, the search returns the first whole second after the instant that the schedule
includes, and nothing if there is none. The iterator yields all of them in order: a
later one is missing only behind as many items as were asked for. -/
theorem nextAfter_first {expression : String} {s : Schedule}
    (hs : Schedule.fromStr expression = .ok s) {after d : DateTime}
    (hd : after.addSecond = .ok d) (hy : asU32 d.year ∈ s.fields.years.ordinals) :
    (∃ r, s.nextAfter after = .ok r ∧ Schedule.IsFirst (s.Occurs after) r) ∧
      ∀ n, ∃ l, (s.after after).take n = .ok l ∧ l.Pairwise DateTime.Before ∧
        (∀ t ∈ l, s.Occurs after t) ∧
        ∀ t, s.Occurs after t → t ∈ l ∨ (l.length = n ∧ ∀ t' ∈ l, t'.Before t) := by
  have hwf := fromStr_wellFormed hs
  exact ⟨nextAfter_exact hwf hd (Or.inl hy), fun n => take_exact hwf n hd (Or.inl hy)⟩

/-- Leap days at midnight, from the 28th of February 2024 on. -/
def leapDays : String := "0 0 0 29 2 *"

/-- A whole second between 1970 and 2100. -/
def instant (timestamp : ℤ) (h : 0 ≤ timestamp ∧ timestamp ≤ maxTimestamp) : DateTime :=
  ⟨timestamp, 0, le_trans (by decide) h.1, h.2, by decide⟩

def february28 : DateTime := instant 1709078400 (by decide)

set_option maxRecDepth 20000 in
theorem nextAfter_first_leapDay :
    ∃ s, Schedule.fromStr leapDays = .ok s ∧ (∃ r, s.nextAfter february28 = .ok r ∧
      Schedule.IsFirst (s.Occurs february28) r) := by
  have hparse : (Schedule.fromStr leapDays).map
      (fun s => decide (2024 ∈ s.fields.years.ordinals)) = .ok true := by
    decide +kernel
  obtain ⟨s, hs, hyear⟩ := map_eq_ok.mp hparse
  have hsecond : february28.addSecond.map (fun d => asU32 d.year) = .ok 2024 := by
    decide +kernel
  obtain ⟨d, hd, hdy⟩ := map_eq_ok.mp hsecond
  have hmem : asU32 d.year ∈ s.fields.years.ordinals := by
    rw [hdy]
    exact of_decide_eq_true hyear
  exact ⟨s, hs, (nextAfter_first hs hd hmem).1⟩

/-! ## Year gaps -/

/-- A whole second of a later year that the schedule includes. -/
def Schedule.OccursLater (s : Schedule) (d t : DateTime) : Prop :=
  t.nanos = 0 ∧ s.includes t = true ∧ d.year < t.year

/-- What the search across a gap takes for granted: the year is not negative, the initial
day exists in the initial month of the first later year, and that year has nothing
before the initial month, day and time. -/
def GapIsHarmless (s : Schedule) (d : DateTime) : Prop :=
  (d.year < 0 ∧ ∀ t, s.includes t = false) ∨
    (0 ≤ d.year ∧ ∀ Y, FirstYear s.fields d Y →
      ¬ (d.month ∈ s.fields.months.ordinals ∧ daysInMonth d.month Y < d.day) ∧
      ∀ t, s.includes t = true → t.year = (Y : ℕ) → bound d Y ≤ t.civil.key)

theorem asU32_of_neg {t : DateTime} (h : t.year < 0) : 2100 < asU32 t.year := by
  have hb := t.year_bounds
  unfold asU32
  omega

/-- A negative year is cast to one that no schedule has. -/
theorem nextAfter_negative {s : Schedule} (hs : s.fields.WellFormed) {after d : DateTime}
    (hd : after.addSecond = .ok d) (h : d.year < 0) : s.nextAfter after = .ok none := by
  apply nextAfter_of_no_year hd
  intro y hy
  have hmax : y ≤ 2100 := ((hs .years).supported y hy).2
  have := asU32_of_neg h
  omega

/-- Any included instant stands for a whole second at the same civil time. -/
theorem exists_whole {s : Schedule} (hs : s.fields.WellFormed) {t : DateTime}
    (ht : s.includes t = true) :
    ∃ t', t'.nanos = 0 ∧ s.includes t' = true ∧ t'.civil = t.civil := by
  have hm := (includes_iff hs t).mp ht
  obtain ⟨t', hnanos, hciv⟩ := hm.instant hs
  refine ⟨t', hnanos, (includes_iff hs t').mpr ?_, hciv⟩
  rw [hciv]
  exact hm

section Gap

variable {s : Schedule} {d : DateTime} {Y : ℕ}

/-- Beyond the gap the search looks for the moments of later years from its bound on. -/
theorem target_iff_later (hpos : 0 ≤ d.year) (hY : FirstYear s.fields d Y)
    (hno : asU32 d.year ∉ s.fields.years.ordinals)
    (hearly : ∀ c, Matches s.fields c → c.date.year = Y → bound d Y ≤ c.key) (c : Civil) :
    Target s.fields d Y c ↔ Matches s.fields c ∧ d.year < c.date.year := by
  have hcast := asU32_of_nonneg hpos
  have hlt : asU32 d.year < Y := by
    rcases hY.2.1.lt_or_eq with hlt | heq
    · exact hlt
    · rw [heq] at hno
      exact absurd hY.1 hno
  constructor
  · intro hc
    have hle := hc.bounds.2.2.2.2.2
    exact ⟨hc.1, by omega⟩
  · rintro ⟨hm, hlater⟩
    refine ⟨hm, ?_⟩
    obtain ⟨y, hy, hcy⟩ := hm.year
    have hYy := hY.2.2 y hy (by omega)
    by_cases heq : c.date.year = Y
    · exact hearly c hm heq
    · have h1 : d.month ≤ 12 := d.civil.date.month_le
      have h2 : d.day < 32 := d.civil.date.day_lt
      have h3 : d.hour < 24 := d.civil.hour_lt
      have h4 : d.minute < 60 := d.civil.minute_lt
      have h5 : d.second < 60 := d.civil.second_lt
      rw [bound_eq]
      unfold Civil.key Civil.minuteKey Civil.hourKey Date.key Date.monthKey
      omega

theorem gap_iff_of_negative (hs : s.fields.WellFormed) {after : DateTime}
    (hd : after.addSecond = .ok d) (hneg : d.year < 0) :
    (∃ r, s.nextAfter after = .ok r ∧ Schedule.IsFirst (s.OccursLater d) r) ↔
      ∀ t, s.includes t = false := by
  rw [nextAfter_negative hs hd hneg]
  constructor
  · rintro ⟨r, hr, hfirst⟩ t
    obtain rfl := Except.ok.inj hr
    rw [Bool.eq_false_iff]
    intro ht
    obtain ⟨t', hnanos, hinc, -⟩ := exists_whole hs ht
    have hyear : 1970 ≤ t'.year := (((includes_iff hs t').mp hinc).year_bounds hs).1
    exact hfirst t' ⟨hnanos, hinc, by omega⟩
  · intro hnone
    refine ⟨none, rfl, fun t ht => ?_⟩
    have hinc := ht.2.1
    rw [hnone t] at hinc
    exact absurd hinc (by simp)

/-- An instant of the first later year before the bound is later than anything found. -/
theorem not_early_of_isFirst (hs : s.fields.WellFormed) (hpos : 0 ≤ d.year)
    (hY : FirstYear s.fields d Y) (hno : asU32 d.year ∉ s.fields.years.ordinals)
    {r : Option DateTime} (hleast : LeastOf (Target s.fields d Y) r)
    (hfirst : Schedule.IsFirst (s.OccursLater d) r) {t : DateTime} (ht : s.includes t = true)
    (hty : t.year = Y) : bound d Y ≤ t.civil.key := by
  have hcast := asU32_of_nonneg hpos
  obtain ⟨t', hnanos, hinc, hciv⟩ := exists_whole hs ht
  have hlater : s.OccursLater d t' := by
    refine ⟨hnanos, hinc, ?_⟩
    have hyear : t'.year = t.year := by rw [DateTime.year, DateTime.year, hciv]
    have hge := hY.2.1
    have hne : asU32 d.year ≠ Y := fun h => hno (h ▸ hY.1)
    omega
  cases r with
  | none => exact absurd hlater (hfirst t')
  | some t0 =>
    obtain ⟨hnanos0, ht0, -⟩ := hleast
    have hb := ht0.2
    rw [← hciv]
    rcases hfirst.2 t' hlater with heq | hbefore
    · rw [heq]
      exact hb
    · exact hb.trans ((DateTime.before_iff_key hnanos0 hnanos).mp hbefore).le

theorem gap_iff_of_firstYear (hs : s.fields.WellFormed) {after : DateTime}
    (hd : after.addSecond = .ok d) (hpos : 0 ≤ d.year) (hY : FirstYear s.fields d Y)
    (hno : asU32 d.year ∉ s.fields.years.ordinals) :
    (∃ r, s.nextAfter after = .ok r ∧ Schedule.IsFirst (s.OccursLater d) r) ↔
      ¬ (d.month ∈ s.fields.months.ordinals ∧ daysInMonth d.month Y < d.day) ∧
      ∀ t, s.includes t = true → t.year = Y → bound d Y ≤ t.civil.key := by
  by_cases hpanic : d.month ∈ s.fields.months.ordinals ∧ daysInMonth d.month Y < d.day
  · rw [nextAfter_panics hd hY hpanic.1 hpanic.2]
    simp [hpanic]
  · have hfit : d.month ∈ s.fields.months.ordinals → d.day ≤ daysInMonth d.month Y := by
      intro hm
      by_contra hlt
      exact hpanic ⟨hm, not_le.mp hlt⟩
    obtain ⟨r, hr, hleast⟩ := nextAfter_leastOf hs hd hY hfit
    rw [hr]
    constructor
    · rintro ⟨r', hr', hfirst⟩
      obtain rfl := Except.ok.inj hr'
      exact ⟨hpanic, fun t ht hty => not_early_of_isFirst hs hpos hY hno hleast hfirst ht hty⟩
    · rintro ⟨-, hearly⟩
      refine ⟨r, rfl, hleast.isFirst hs (fun t => Iff.rfl)
        (target_iff_later hpos hY hno fun c hm hc => ?_)⟩
      obtain ⟨t, -, hciv⟩ := hm.instant hs
      have hinc : s.includes t = true := (includes_iff hs t).mpr (by rw [hciv]; exact hm)
      have hkey := hearly t hinc (by rw [DateTime.year, hciv, hc])
      rw [hciv] at hkey
      exact hkey

end Gap

theorem gap_iff {s : Schedule} (hwf : s.fields.WellFormed) {after d : DateTime}
    (hd : after.addSecond = .ok d) (hno : asU32 d.year ∉ s.fields.years.ordinals)
    (hlater : ∃ y ∈ s.fields.years.ordinals, d.year < (y : ℕ)) :
    (∃ r, s.nextAfter after = .ok r ∧ Schedule.IsFirst (s.OccursLater d) r) ↔
      GapIsHarmless s d := by
  by_cases hneg : d.year < 0
  · have hpos : ¬ 0 ≤ d.year := not_le.mpr hneg
    rw [gap_iff_of_negative hwf hd hneg, GapIsHarmless]
    simp [hneg, hpos]
  · have hpos : 0 ≤ d.year := not_lt.mp hneg
    have hcast := asU32_of_nonneg hpos
    obtain ⟨y, hy, hdy⟩ := hlater
    obtain ⟨Y, hY⟩ := exists_firstYear ⟨y, hy, (by omega : asU32 d.year ≤ y)⟩
    have huniq : ∀ Y', FirstYear s.fields d Y' ↔ Y' = Y := by
      intro Y'
      refine ⟨fun hY' => ?_, fun h => by rw [h]; exact hY⟩
      exact le_antisymm (hY'.2.2 Y hY.1 hY.2.1) (hY.2.2 Y' hY'.1 hY'.2.1)
    rw [gap_iff_of_firstYear hwf hd hpos hY hno, GapIsHarmless]
    simp only [huniq, forall_eq, hpos, hneg, true_and, false_and, false_or]

/-- Across a year gap the search returns the first included instant of the later years if
and only if the gap is harmless. -/
theorem nextAfter_gap_iff {expression : String} {s : Schedule}
    (hs : Schedule.fromStr expression = .ok s) {after d : DateTime}
    (hd : after.addSecond = .ok d) (hno : asU32 d.year ∉ s.fields.years.ordinals)
    (hlater : ∃ y ∈ s.fields.years.ordinals, d.year < (y : ℕ)) :
    (∃ r, s.nextAfter after = .ok r ∧ Schedule.IsFirst (s.OccursLater d) r) ↔
      GapIsHarmless s d :=
  gap_iff (fromStr_wellFormed hs) hd hno hlater

/-! ## What a search finds -/

theorem exists_addSecond {s : Schedule} {after : DateTime} {r : Option DateTime}
    (h : s.nextAfter after = .ok r) : ∃ d, after.addSecond = .ok d := by
  simp only [Schedule.nextAfter, NextAfterQuery.ofAfter, bind_eq_ok, pure_eq_ok] at h
  obtain ⟨q, ⟨d, hd, -⟩, -⟩ := h
  exact ⟨d, hd⟩

/-- A search that finds an instant started in a year of the schedule, and was not carried
past the end of a month. -/
theorem nextAfter_found {s : Schedule} (hs : s.fields.WellFormed) {after d r : DateTime}
    (hd : after.addSecond = .ok d) (h : s.nextAfter after = .ok (some r)) :
    0 ≤ d.year ∧ ∃ Y, FirstYear s.fields d Y ∧ LeastOf (Target s.fields d Y) (some r) := by
  have hpos : 0 ≤ d.year := by
    by_contra hneg
    rw [nextAfter_negative hs hd (not_le.mp hneg)] at h
    exact absurd h (by simp)
  refine ⟨hpos, ?_⟩
  by_cases hex : ∃ y ∈ s.fields.years.ordinals, asU32 d.year ≤ y
  · obtain ⟨Y, hY⟩ := exists_firstYear hex
    have hfit : d.month ∈ s.fields.months.ordinals → d.day ≤ daysInMonth d.month Y := by
      intro hm
      by_contra hlt
      rw [nextAfter_panics hd hY hm (not_le.mp hlt)] at h
      exact absurd h (by simp)
    obtain ⟨r', hr', hleast⟩ := nextAfter_leastOf hs hd hY hfit
    rw [h] at hr'
    obtain rfl := Except.ok.inj hr'
    exact ⟨Y, hY, hleast⟩
  · have hlt : ∀ y ∈ s.fields.years.ordinals, y < asU32 d.year := by
      intro y hy
      by_contra hge
      exact hex ⟨y, hy, not_lt.mp hge⟩
    rw [nextAfter_of_no_year hd hlt] at h
    exact absurd h (by simp)

/-- Whatever a search finds is an occurrence. -/
theorem found_occurs {s : Schedule} (hs : s.fields.WellFormed) {after d r : DateTime}
    (hd : after.addSecond = .ok d) (h : s.nextAfter after = .ok (some r)) : s.Occurs after r := by
  obtain ⟨hpos, Y, hY, hnanos, ⟨hm, hbound⟩, -⟩ := nextAfter_found hs hd h
  have hcast := asU32_of_nonneg hpos
  have hge := hY.2.1
  refine ⟨hnanos, (DateTime.before_iff hd hnanos).mpr (le_trans ?_ hbound),
    (includes_iff hs r).mpr hm⟩
  rw [bound_eq, civil_key_eq]
  omega

/-- After an instant in a year without occurrences come those of later years. -/
theorem occurs_iff_later {s : Schedule} (hs : s.fields.WellFormed) {after d : DateTime}
    (hd : after.addSecond = .ok d) (hno : asU32 d.year ∉ s.fields.years.ordinals) (t : DateTime) :
    s.Occurs after t ↔ s.OccursLater d t := by
  constructor
  · rintro ⟨hnanos, hbefore, hinc⟩
    refine ⟨hnanos, hinc, ?_⟩
    have hle := Civil.year_le_of_key_le ((DateTime.before_iff hd hnanos).mp hbefore)
    obtain ⟨y, hy, hty⟩ := ((includes_iff hs t).mp hinc).year
    rcases hle.lt_or_eq with hlt | heq
    · exact hlt
    · exact absurd ((asU32_mem hs d).mpr ⟨y, hy, heq.trans hty⟩) hno
  · rintro ⟨hnanos, hinc, hlater⟩
    refine ⟨hnanos, (DateTime.before_iff hd hnanos).mpr ?_, hinc⟩
    by_contra hlt
    have hle := Civil.year_le_of_key_le (not_le.mp hlt).le
    unfold DateTime.year at hlater
    omega

/-- The search from an instant meets no gap, or a harmless one. -/
def SearchIsExact (s : Schedule) (d : DateTime) : Prop :=
  asU32 d.year ∈ s.fields.years.ordinals ∨ GapIsHarmless s d

theorem found_isFirst_iff {s : Schedule} (hs : s.fields.WellFormed) {after d r : DateTime}
    (hd : after.addSecond = .ok d) (h : s.nextAfter after = .ok (some r)) :
    Schedule.IsFirst (s.Occurs after) (some r) ↔ SearchIsExact s d := by
  by_cases hyear : asU32 d.year ∈ s.fields.years.ordinals
  · obtain ⟨r', hr', hfirst⟩ := nextAfter_exact hs hd (Or.inl hyear)
    rw [h] at hr'
    obtain rfl := Except.ok.inj hr'
    exact ⟨fun _ => Or.inl hyear, fun _ => hfirst⟩
  · have hlater := (occurs_iff_later hs hd hyear r).mp (found_occurs hs hd h)
    obtain ⟨y, hy, hry⟩ := ((includes_iff hs r).mp hlater.2.1).year
    have hsame : s.Occurs after = s.OccursLater d :=
      funext fun t => propext (occurs_iff_later hs hd hyear t)
    have hgap := gap_iff hs hd hyear ⟨y, hy, hry ▸ hlater.2.2⟩
    rw [h] at hgap
    simp only [Except.ok.injEq, exists_eq_left'] at hgap
    rw [hsame, hgap, SearchIsExact]
    simp [hyear]

/-- At the start of a year nothing is carried. -/
theorem gapIsHarmless_of_startsYear {s : Schedule} {d : DateTime} (hpos : 0 ≤ d.year)
    (h : d.StartsYear) : GapIsHarmless s d := by
  obtain ⟨h1, h2, h3, h4, h5⟩ := h
  refine Or.inr ⟨hpos, fun Y _ => ⟨?_, fun t _ hty => ?_⟩⟩
  · rintro ⟨-, hlt⟩
    have hdays := daysInMonth_bounds Y d.month
    rw [daysInMonth_eq] at hlt
    omega
  · have hm := t.civil.date.month_pos
    have hd := t.civil.date.day_pos
    have hty' : t.civil.date.year = Y := hty
    rw [bound_eq]
    unfold Civil.key Civil.minuteKey Civil.hourKey Date.key Date.monthKey
    omega

/-! ## A schedule for 2025 -/

def firstOfMonth2025 : String := "0 0 0 1 * * 2025"

/-- The last seconds of 2023 and of the 28th of February 2024. -/
def newYearsEve : DateTime := instant 1704067199 (by decide)

def endOfFebruary28 : DateTime := instant 1709164799 (by decide)

set_option maxRecDepth 20000 in
theorem firstOfMonth2025_parsed :
    ∃ s, Schedule.fromStr firstOfMonth2025 = .ok s ∧
      (∀ y, y ∈ s.fields.years.ordinals ↔ y = 2025) ∧
      s.fields.months.ordinals = TimeUnit.months.supportedOrdinals := by
  have hparse : (Schedule.fromStr firstOfMonth2025).map (fun s =>
      decide (s.fields.years.ordinals.toList = [2025] ∧
        s.fields.months.ordinals = TimeUnit.months.supportedOrdinals)) = .ok true := by
    decide +kernel
  obtain ⟨s, hs, h⟩ := map_eq_ok.mp hparse
  obtain ⟨hyears, hmonths⟩ := of_decide_eq_true h
  refine ⟨s, hs, fun y => ?_, hmonths⟩
  rw [SortedSet.mem_def, hyears, List.mem_singleton]

set_option maxRecDepth 20000 in
/-- The second after the 28th of February 2024 is on a leap day, and the search for the
first of a month in 2025 panics. -/
theorem nextAfter_panics_on_leapDay :
    ∃ s d, Schedule.fromStr firstOfMonth2025 = .ok s ∧ endOfFebruary28.addSecond = .ok d ∧
      asU32 d.year ∉ s.fields.years.ordinals ∧
      (∃ y ∈ s.fields.years.ordinals, d.year < (y : ℕ)) ∧
      s.nextAfter endOfFebruary28 = .error .panic ∧
      ¬ ∃ r, s.nextAfter endOfFebruary28 = .ok r ∧ Schedule.IsFirst (s.OccursLater d) r := by
  obtain ⟨s, hs, hmem, hmonths⟩ := firstOfMonth2025_parsed
  have hsecond : endOfFebruary28.addSecond.map (fun d =>
      decide (d.year = 2024 ∧ d.month = 2 ∧ d.day = 29)) = .ok true := by
    decide +kernel
  obtain ⟨d, hd, h⟩ := map_eq_ok.mp hsecond
  obtain ⟨hy, hm, hday⟩ := of_decide_eq_true h
  have hcast : asU32 d.year = 2024 := by rw [hy]; decide
  have hY : FirstYear s.fields d 2025 := by
    refine ⟨(hmem 2025).mpr rfl, by omega, fun y hy' _ => ?_⟩
    rw [(hmem y).mp hy']
  have hpanic : s.nextAfter endOfFebruary28 = .error .panic := by
    refine nextAfter_panics hd hY ?_ ?_
    · rw [hmonths, TimeUnit.mem_supportedOrdinals, hm]
      decide
    · rw [hm, hday]
      decide
  refine ⟨s, d, hs, hd, ?_, ⟨2025, (hmem 2025).mpr rfl, by omega⟩, hpanic, ?_⟩
  · rw [hmem, hcast]
    decide
  · rintro ⟨r, hr, -⟩
    rw [hpanic] at hr
    exact absurd hr (by simp)

set_option maxRecDepth 20000 in
theorem nextAfter_gap_from_newYear :
    ∃ s d, Schedule.fromStr firstOfMonth2025 = .ok s ∧ newYearsEve.addSecond = .ok d ∧
      ∃ r, s.nextAfter newYearsEve = .ok r ∧ Schedule.IsFirst (s.OccursLater d) r := by
  obtain ⟨s, hs, hmem, -⟩ := firstOfMonth2025_parsed
  have hsecond : newYearsEve.addSecond.map (fun d => decide (d.year = 2024 ∧ d.month = 1 ∧
      d.day = 1 ∧ d.hour = 0 ∧ d.minute = 0 ∧ d.second = 0)) = .ok true := by
    decide +kernel
  obtain ⟨d, hd, h⟩ := map_eq_ok.mp hsecond
  obtain ⟨hy, hstart⟩ := of_decide_eq_true h
  have hcast : asU32 d.year = 2024 := by rw [hy]; decide
  have hno : asU32 d.year ∉ s.fields.years.ordinals := by
    rw [hmem, hcast]
    decide
  exact ⟨s, d, hs, hd, (nextAfter_gap_iff hs hd hno ⟨2025, (hmem 2025).mpr rfl, by omega⟩).mpr
    (gapIsHarmless_of_startsYear (by omega) hstart)⟩

end Antegen.Cron
