import Antegen.CronExact
import Antegen.CronGreatest

/-!
# When the backward search is exact

The bounds of a backward search are those of the second before the given instant. If the
schedule has the year of that second, or the second is the last of its year, they are
bounds for the moment before, and the search misses nothing. The second before a moment
found is one of these again, so the iterator run backwards misses nothing either.
-/
namespace Antegen.Cron

open Calendar

namespace DateTime

theorem subSecond_timestamp {t d : DateTime} (hwhole : t.nanos = 0) (h : t.subSecond = .ok d) :
    d.timestamp = t.timestamp - 1 := by
  unfold subSecond at h
  rw [ofOption_eq_ok, hwhole, if_neg (by decide), fromTimestamp] at h
  split_ifs at h
  rw [← Option.some.inj h]

/-- Whole seconds before a whole second are those up to the second before it. -/
theorem before_iff_le {t d c : DateTime} (hwhole : t.nanos = 0) (hd : t.subSecond = .ok d)
    (hc : c.nanos = 0) : c.Before t ↔ c.civil.key ≤ d.civil.key := by
  have hts := subSecond_timestamp hwhole hd
  rw [← not_lt, ← Civil.timestamp_lt_iff, civil_timestamp, civil_timestamp, hts, Before, hc,
    hwhole]
  omega

/-- The last second of a year. -/
def EndsYear (t : DateTime) : Prop :=
  t.month = 12 ∧ t.day = 31 ∧ t.hour = 23 ∧ t.minute = 59 ∧ t.second = 59

end DateTime

/-! ## Searches on their bounds -/

def OnBoundsBack (s : ScheduleFields) (d : DateTime) : Prop :=
  asU32 d.year ∈ s.years.ordinals ∨ (0 ≤ d.year ∧ d.EndsYear)

theorem OnBoundsBack.year_nonneg {s : ScheduleFields} (hs : s.WellFormed) {d : DateTime}
    (h : OnBoundsBack s d) : 0 ≤ d.year := by
  rcases h with h | h
  · obtain ⟨y, -, hy⟩ := (asU32_mem hs d).mp h
    omega
  · exact h.1

theorem exists_lastYear {s : ScheduleFields} {d : DateTime}
    (h : ∃ y ∈ s.years.ordinals, y ≤ asU32 d.year) : ∃ Y, LastYear s d Y := by
  obtain ⟨y, hy, hle⟩ := h
  refine ⟨Nat.findGreatest (fun n => n ∈ s.years.ordinals) (asU32 d.year), ?_,
    Nat.findGreatest_le _, fun n hn hle' => Nat.le_findGreatest hle' hn⟩
  exact Nat.findGreatest_spec (P := fun n => n ∈ s.years.ordinals) hle hy

/-- A moment up to an instant is in a year of the schedule up to that of the instant. -/
theorem Matches.year_le {s : ScheduleFields} {c : Civil} (h : Matches s c) {d : DateTime}
    (hpos : 0 ≤ d.year) (hkey : c.key ≤ d.civil.key) :
    ∃ y ∈ s.years.ordinals, c.date.year = y ∧ y ≤ asU32 d.year := by
  have hcast := asU32_of_nonneg hpos
  obtain ⟨y, hy, hcy⟩ := h.year
  have hyears := Civil.year_le_of_key_le hkey
  have hdy : d.civil.date.year = d.year := rfl
  exact ⟨y, hy, hcy, by omega⟩

/-- On its bounds a search looks for exactly the moments up to the initial second. -/
theorem OnBoundsBack.target_iff {s : ScheduleFields} (hs : s.WellFormed) {d : DateTime} {Y : ℕ}
    (h : OnBoundsBack s d) (hY : LastYear s d Y) (c : Civil) :
    TargetBack s d Y c ↔ Matches s c ∧ c.key ≤ d.civil.key := by
  have hpos := asU32_of_nonneg (h.year_nonneg hs)
  have hlast := hY.2.1
  rcases h with h | ⟨h0, h1, h2, h3, h4, h5⟩
  · have hle := hY.2.2 _ h le_rfl
    have hYd : (Y : ℤ) = d.year := by omega
    rw [TargetBack, bound_eq, civil_key_eq, hYd]
  · constructor
    · intro hc
      refine ⟨hc.1, le_trans hc.2 ?_⟩
      rw [bound_eq, civil_key_eq]
      omega
    · rintro ⟨hm, hc⟩
      refine ⟨hm, ?_⟩
      obtain ⟨y, hy, hcy, hyear⟩ := hm.year_le h0 hc
      have hYy := hY.2.2 y hy hyear
      have hmonth := c.date.month_le
      have hday := c.date.day_lt
      have hhour := c.hour_lt
      have hminute := c.minute_lt
      have hsecond := c.second_lt
      rw [bound_eq]
      unfold Civil.key Civil.minuteKey Civil.hourKey Date.key Date.monthKey
      omega

/-- The initial day is not cut off. -/
theorem OnBoundsBack.fits {s : ScheduleFields} (hs : s.WellFormed) {d : DateTime} {Y : ℕ}
    (h : OnBoundsBack s d) (hY : LastYear s d Y) : d.day ≤ daysInMonth d.month Y := by
  have hpos := asU32_of_nonneg (h.year_nonneg hs)
  rcases h with h | ⟨-, h1, h2, -⟩
  · have hle := hY.2.2 _ h le_rfl
    have hge := hY.2.1
    have hYd : (Y : ℤ) = d.year := by omega
    rw [daysInMonth_eq, hYd]
    exact d.civil.date.day_le
  · rw [h1, h2]
    exact le_rfl

namespace Schedule

/-- A whole second before the given instant that the schedule includes. -/
def OccursBefore (s : Schedule) (before t : DateTime) : Prop :=
  t.nanos = 0 ∧ t.Before before ∧ s.includes t = true

/-- The last of the instants in question, or none if there are none. -/
def IsLast (P : DateTime → Prop) : Option DateTime → Prop
  | none => ∀ t, ¬ P t
  | some t => P t ∧ ∀ t', P t' → t' = t ∨ t'.Before t

end Schedule

/-- Greatest moments are last instants. -/
theorem GreatestOf.isLast {s : Schedule} (hs : s.fields.WellFormed) {Q : Civil → Prop}
    {P : DateTime → Prop} {T : Civil → Prop}
    (hP : ∀ t, P t ↔ t.nanos = 0 ∧ s.includes t = true ∧ Q t.civil)
    (hT : ∀ c, T c ↔ Matches s.fields c ∧ Q c) {r : Option DateTime} (h : GreatestOf T r) :
    Schedule.IsLast P r := by
  cases r with
  | none =>
    intro t ht
    obtain ⟨-, hinc, hq⟩ := (hP t).mp ht
    exact h t.civil ((hT _).mpr ⟨(includes_iff hs t).mp hinc, hq⟩)
  | some t =>
    obtain ⟨hnanos, ht, hgreatest⟩ := h
    obtain ⟨hm, hq⟩ := (hT _).mp ht
    refine ⟨(hP t).mpr ⟨hnanos, (includes_iff hs t).mpr hm, hq⟩, fun t' ht' => ?_⟩
    obtain ⟨hnanos', hinc', hq'⟩ := (hP t').mp ht'
    have hle := hgreatest t'.civil ((hT _).mpr ⟨(includes_iff hs t').mp hinc', hq'⟩)
    rcases hle.lt_or_eq with hlt | heq
    · exact Or.inr ((DateTime.before_iff_key hnanos' hnanos).mpr hlt)
    · exact Or.inl (DateTime.ext_civil hnanos' hnanos heq)

theorem prevBefore_exact {s : Schedule} (hs : s.fields.WellFormed) {before d : DateTime}
    (hwhole : before.nanos = 0) (hd : before.subSecond = .ok d) (h : OnBoundsBack s.fields d) :
    ∃ r, s.prevBefore before = .ok r ∧ Schedule.IsLast (s.OccursBefore before) r := by
  have hP : ∀ t, s.OccursBefore before t ↔
      t.nanos = 0 ∧ s.includes t = true ∧ t.civil.key ≤ d.civil.key := by
    intro t
    constructor
    · rintro ⟨h1, h2, h3⟩
      exact ⟨h1, h3, (DateTime.before_iff_le hwhole hd h1).mp h2⟩
    · rintro ⟨h1, h2, h3⟩
      exact ⟨h1, (DateTime.before_iff_le hwhole hd h1).mpr h3, h2⟩
  by_cases hex : ∃ y ∈ s.fields.years.ordinals, y ≤ asU32 d.year
  · obtain ⟨Y, hY⟩ := exists_lastYear hex
    obtain ⟨r, hr, hgreatest⟩ := prevBefore_greatestOf hs hd hY (h.fits hs hY)
    exact ⟨r, hr, hgreatest.isLast hs hP (h.target_iff hs hY)⟩
  · have hlt : ∀ y ∈ s.fields.years.ordinals, asU32 d.year < y := by
      intro y hy
      by_contra hge
      exact hex ⟨y, hy, not_lt.mp hge⟩
    refine ⟨none, prevBefore_of_no_year hd hlt, fun t ht => ?_⟩
    obtain ⟨-, hinc, hkey⟩ := (hP t).mp ht
    obtain ⟨y, hy, -, hyear⟩ := ((includes_iff hs t).mp hinc).year_le (h.year_nonneg hs) hkey
    exact absurd hyear (not_le.mpr (hlt y hy))

/-! ## The iterator -/

/-- Every occurrence is from 1970 on. -/
theorem timestamp_nonneg {s : Schedule} (hs : s.fields.WellFormed) {t : DateTime}
    (ht : s.includes t = true) : 0 ≤ t.timestamp := by
  obtain ⟨h1, -⟩ := ((includes_iff hs t).mp ht).year_bounds hs
  have hyear : yearStart 1970 ≤ yearStart t.civil.date.year := yearStart_le h1
  have hstart := t.civil.date.yearStart_le_dayNumber
  have h1970 : yearStart 1970 = 719162 := by decide
  have hts := t.civil_timestamp
  unfold Civil.timestamp epochDay at hts
  omega

/-- A moment found is preceded by a second that is on the bounds again. -/
theorem onBoundsBack_pred {s : Schedule} (hs : s.fields.WellFormed) {t : DateTime}
    (hwhole : t.nanos = 0) (ht : s.includes t = true) :
    ∃ d, t.subSecond = .ok d ∧ OnBoundsBack s.fields d := by
  have hm := (includes_iff hs t).mp ht
  obtain ⟨h1, -⟩ := hm.year_bounds hs
  have hpos := timestamp_nonneg hs ht
  have hmax := t.le_max
  have hrange : (minTimestamp ≤ t.timestamp - 1 ∧ t.timestamp - 1 ≤ maxTimestamp) ∧
      0 < 2000000000 := by
    unfold minTimestamp
    omega
  obtain ⟨d, hd⟩ : ∃ d : DateTime, d = ⟨t.timestamp - 1, 0, hrange.1.1, hrange.1.2, hrange.2⟩ :=
    ⟨_, rfl⟩
  refine ⟨d, ?_, ?_⟩
  · rw [DateTime.subSecond, hwhole, if_neg (by decide), DateTime.fromTimestamp, dif_pos hrange, hd]
    rfl
  · have hsucc : t.civil.timestamp = d.civil.timestamp + 1 := by
      rw [t.civil_timestamp, d.civil_timestamp, hd]
      exact (sub_add_cancel t.timestamp 1).symm
    rcases Civil.succ_year hsucc with heq | hfirst
    · left
      obtain ⟨y, hy, hty⟩ := hm.year
      exact (asU32_mem hs d).mpr ⟨y, hy, heq.symm.trans hty⟩
    · right
      have hend := Civil.endOfYear_timestamp (t.civil.date.year - 1)
      rw [sub_add_cancel, ← hfirst, hsucc] at hend
      have hciv : d.civil = Civil.endOfYear (t.civil.date.year - 1) :=
        Civil.timestamp_injective (by omega)
      unfold DateTime.EndsYear DateTime.year DateTime.month DateTime.day DateTime.hour
        DateTime.minute DateTime.second
      rw [hciv]
      refine ⟨?_, rfl, rfl, rfl, rfl, rfl⟩
      have hlast : (Civil.endOfYear (t.civil.date.year - 1)).date.year = t.civil.date.year - 1 :=
        rfl
      omega

/-- The first items of an iterator that is run backwards; fewer if it ends before. -/
def ScheduleIterator.takeBack : ℕ → ScheduleIterator → Result (List DateTime)
  | 0, _ => .ok []
  | n + 1, it => do
    let (r, it) ← it.nextBack
    match r with
    | none => pure []
    | some t => do
      let l ← takeBack n it
      pure (t :: l)

theorem takeBack_eq_walk (s : Schedule) (n : ℕ) (before : DateTime) :
    (s.after before).takeBack n = Enumeration.walk s.prevBefore n before := by
  induction n generalizing before with
  | zero => rfl
  | succ n ih =>
    cases hr : s.prevBefore before with
    | error e =>
      simp [ScheduleIterator.takeBack, ScheduleIterator.nextBack, Schedule.after, Enumeration.walk,
        hr, bind, Except.bind]
    | ok r =>
      cases r with
      | none =>
        rw [Enumeration.walk_none hr]
        simp [ScheduleIterator.takeBack, ScheduleIterator.nextBack, Schedule.after, hr, bind,
          Except.bind, pure, Except.pure]
      | some t =>
        have hrest : ScheduleIterator.takeBack n ⟨false, s, t⟩ =
            Enumeration.walk s.prevBefore n t := ih t
        simp [ScheduleIterator.takeBack, ScheduleIterator.nextBack, Schedule.after,
          Enumeration.walk, hr, bind, Except.bind, pure, Except.pure, hrest]

theorem Schedule.IsLast.first {s : Schedule} {before : DateTime} {r : Option DateTime}
    (h : Schedule.IsLast (s.OccursBefore before) r) :
    Enumeration.First (fun t t' => DateTime.Before t' t) s.Selects before r := by
  cases r with
  | none => exact fun t ht hbefore => h t ⟨ht.1, hbefore, ht.2⟩
  | some t =>
    obtain ⟨⟨hnanos, hbefore, hinc⟩, hgreatest⟩ := h
    exact ⟨⟨hnanos, hinc⟩, hbefore, fun t' ht' h' => hgreatest t' ⟨ht'.1, h', ht'.2⟩⟩

/-- Run backwards, the iterator yields the last occurrences, from the last one down. -/
theorem takeBack_exact {s : Schedule} (hs : s.fields.WellFormed) (n : ℕ) {before d : DateTime}
    (hwhole : before.nanos = 0) (hd : before.subSecond = .ok d) (h : OnBoundsBack s.fields d) :
    ∃ l, (s.after before).takeBack n = .ok l ∧ l.Pairwise (fun t t' => t'.Before t) ∧
      (∀ t ∈ l, s.OccursBefore before t) ∧
      ∀ t, s.OccursBefore before t → t ∈ l ∨ (l.length = n ∧ ∀ t' ∈ l, t.Before t') := by
  have hstep : ∀ a : DateTime,
      (a.nanos = 0 ∧ ∃ d, a.subSecond = .ok d ∧ OnBoundsBack s.fields d) →
      ∃ r, s.prevBefore a = .ok r ∧
        Enumeration.First (fun t t' => DateTime.Before t' t) s.Selects a r ∧
        ∀ t, r = some t →
          t.nanos = 0 ∧ ∃ d, t.subSecond = .ok d ∧ OnBoundsBack s.fields d := by
    rintro a ⟨hwhole, d, hd, h⟩
    obtain ⟨r, hr, hlast⟩ := prevBefore_exact hs hwhole hd h
    refine ⟨r, hr, hlast.first, ?_⟩
    rintro t rfl
    obtain ⟨hnanos, -, hinc⟩ := hlast.1
    exact ⟨hnanos, onBoundsBack_pred hs hnanos hinc⟩
  obtain ⟨l, hl, hsorted, hmem, hall⟩ :=
    Enumeration.walk_exact (R := fun t t' => DateTime.Before t' t) (fun _ _ _ h h' => h'.trans h)
      hstep n ⟨hwhole, d, hd, h⟩
  refine ⟨l, (takeBack_eq_walk s n before).trans hl, hsorted, fun t ht => ?_, fun t ht => ?_⟩
  · obtain ⟨⟨hnanos, hinc⟩, hbefore⟩ := hmem t ht
    exact ⟨hnanos, hbefore, hinc⟩
  · exact hall t ⟨ht.1, ht.2.2⟩ ht.2.1

/-- For every parsed schedule and every whole second whose second before is in a year of the
schedule, the backward search returns the last whole second before the instant that the
schedule includes, and nothing exactly if there is none from 1970 on. The iterator yields
all of them in descending order: an earlier one is missing only behind as many items as
were asked for. -/
theorem prevBefore_last {expression : String} {s : Schedule}
    (hs : Schedule.fromStr expression = .ok s) {before d : DateTime} (hwhole : before.nanos = 0)
    (hd : before.subSecond = .ok d) (hy : asU32 d.year ∈ s.fields.years.ordinals) :
    (∃ r, s.prevBefore before = .ok r ∧ Schedule.IsLast (s.OccursBefore before) r ∧
        (r = none ↔ ∀ t, s.OccursBefore before t → t.timestamp < 0)) ∧
      ∀ n, ∃ l, (s.after before).takeBack n = .ok l ∧ l.Pairwise (fun t t' => t'.Before t) ∧
        (∀ t ∈ l, s.OccursBefore before t) ∧
        ∀ t, s.OccursBefore before t → t ∈ l ∨ (l.length = n ∧ ∀ t' ∈ l, t.Before t') := by
  have hwf := fromStr_wellFormed hs
  refine ⟨?_, fun n => takeBack_exact hwf n hwhole hd (Or.inl hy)⟩
  obtain ⟨r, hr, hlast⟩ := prevBefore_exact hwf hwhole hd (Or.inl hy)
  refine ⟨r, hr, hlast, ?_⟩
  cases r with
  | none => exact ⟨fun _ t ht => absurd ht (hlast t), fun _ => rfl⟩
  | some t =>
    refine ⟨fun h => absurd h (by simp), fun hnone => ?_⟩
    have hpast := hnone t hlast.1
    have hpos := timestamp_nonneg hwf hlast.1.2.2
    omega

/-- The first of March 2024. -/
def march1 : DateTime := instant 1709251200 (by decide)

set_option maxRecDepth 20000 in
/-- The 29th of February 2024. -/
theorem prevBefore_last_leapDay :
    ∃ s t, Schedule.fromStr leapDays = .ok s ∧ t.timestamp = 1709164800 ∧
      s.prevBefore march1 = .ok (some t) ∧ s.OccursBefore march1 t ∧
      ∀ t', s.OccursBefore march1 t' → t' = t ∨ t'.Before t := by
  have hparse : (Schedule.fromStr leapDays).map (fun s =>
      (decide (2024 ∈ s.fields.years.ordinals),
        (s.prevBefore march1).map (Option.map DateTime.timestamp))) =
      .ok (true, .ok (some 1709164800)) := by
    decide +kernel
  obtain ⟨s, hs, hrun⟩ := map_eq_ok.mp hparse
  obtain ⟨hyear, hprev⟩ := Prod.mk.inj hrun
  have hsecond : march1.subSecond.map (fun d => asU32 d.year) = .ok 2024 := by
    decide +kernel
  obtain ⟨d, hd, hdy⟩ := map_eq_ok.mp hsecond
  have hmem : asU32 d.year ∈ s.fields.years.ordinals := by
    rw [hdy]
    exact of_decide_eq_true hyear
  obtain ⟨⟨r, hr, hlast, -⟩, -⟩ := prevBefore_last hs rfl hd hmem
  obtain ⟨r', hr', ht⟩ := map_eq_ok.mp hprev
  obtain rfl := Except.ok.inj (hr.symm.trans hr')
  obtain ⟨t, rfl, htime⟩ := Option.map_eq_some_iff.mp ht
  exact ⟨s, t, hs, htime, hr, hlast.1, hlast.2⟩

end Antegen.Cron
