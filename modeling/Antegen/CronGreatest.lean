import Antegen.CronLeast
import Antegen.CronSearchBack

/-!
# The backward search finds the greatest moment

Positions and bounds are those of the forward search, read in the other direction: a loop
is entered on the bound or before it. The days are cut off at the end of the month. On
the bound the cut changes nothing, because the initial day is one of its month, and
before the bound nothing is left that a cut could disturb.
-/
namespace Antegen.Cron

open Calendar

/-- The order in which the backward search walks. -/
def latestFirst (c : Civil) : ℤ := -c.key

variable {d : DateTime} {dead : Prop}

/-! ## One loop -/

/-- A loop settles the moments of all its ordinals up to the upper bound. -/
theorem levelBack_endsBy {ordinals : OrdinalSet} {first stop : ℕ} {cutOff : ℕ → ℕ}
    {upperBound : PrevFromQuery → ℕ × PrevFromQuery} {reset : PrevFromQuery → PrevFromQuery}
    {body : ℕ → Search} {A : PrevFromQuery → ℕ → Prop} {T : ℕ → Civil → Prop}
    {q q' : PrevFromQuery} (hbound : upperBound q = (stop, q')) (hle : first ≤ cutOff stop)
    (hcut : cutOff stop = stop ∨ (cutOff stop < stop ∧ q' = spent d))
    (hreset : reset q' = spent d) (hon : stop ∈ ordinals → A q' stop)
    (hlater : ∀ x, x < stop → A (spent d) x)
    (hmono : ∀ x y c c', x < y → T x c → T y c' → c.key < c'.key)
    (hbody : ∀ x ∈ ordinals, first ≤ x → x ≤ cutOff stop → ∀ q, A q x →
      EndsBy latestFirst d (T x) dead (body x q)) :
    EndsBy latestFirst d (fun c => ∃ x ∈ ordinals, first ≤ x ∧ x ≤ cutOff stop ∧ T x c) dead
      (levelBack ordinals first cutOff upperBound reset body q) := by
  obtain ⟨l, hrange, hsorted, hmem⟩ := ordinals.range_eq_some hle
  have hlevel : levelBack ordinals first cutOff upperBound reset body q =
      scan body l.reverse (if stop ∈ ordinals then q' else reset q') := by
    simp [levelBack, hbound, hrange, ofOption, bind, Except.bind]
  rw [hlevel]
  have hmem' : ∀ x, x ∈ l.reverse ↔ x ∈ ordinals ∧ first ≤ x ∧ x ≤ cutOff stop := by
    intro x
    rw [List.mem_reverse, hmem]
  have hsorted' : l.reverse.Pairwise (· > ·) := List.pairwise_reverse.mpr hsorted
  have hscan : EndsBy latestFirst d (fun c => ∃ x ∈ l.reverse, T x c) dead
      (scan body l.reverse (if stop ∈ ordinals then q' else reset q')) := by
    refine walk_endsBy (A := A) (fun x y c c' hxy hx hy => ?_) hsorted' stop (fun x hx => ?_)
      (fun x hx => ?_) (fun hin => ?_) (fun hout => ?_) fun x hx hne => ?_
    · have hlt := hmono y x c' c hxy hy hx
      unfold latestFirst
      omega
    · have := ((hmem' x).mp hx).2.2
      omega
    · obtain ⟨h1, h2, h3⟩ := (hmem' x).mp hx
      exact hbody x h1 h2 h3
    · have hstop := ((hmem' stop).mp hin).1
      rw [if_pos hstop]
      exact hon hstop
    · rcases hcut with hcut | ⟨-, hspent⟩
      · have hstop : stop ∉ ordinals := fun h => hout ((hmem' stop).mpr ⟨h, by omega, hcut.ge⟩)
        rw [if_neg hstop, hreset]
      · rw [hreset, hspent]
        exact ite_self _
    · have := ((hmem' x).mp hx).2.2
      exact hlater x (by omega)
  refine hscan.congr fun c => ?_
  simp only [hmem', and_assoc]

/-- A loop over one component, at a position that `Enters` takes for the bound of the
bound of the loop: the arguments are exchanged. -/
theorem Digit.levelBack_endsBy (g : Digit) {G : Civil → Prop} {ordinals : OrdinalSet}
    {first hi k : ℕ} {cutOff : ℕ → ℕ} {upperBound : PrevFromQuery → ℕ × PrevFromQuery}
    {reset : PrevFromQuery → PrevFromQuery} {body : ℕ → Search} {tight tight' q : PrevFromQuery}
    {p kp : ℤ} (hq : Enters d tight kp p q)
    (hloose : upperBound (spent d) = (hi, spent d)) (htight : upperBound tight = (k, tight'))
    (hreset : reset (spent d) = spent d) (hreset' : reset tight' = spent d)
    (hhi : hi < g.width) (hcut : cutOff hi ≤ hi) (hfirst : first ≤ cutOff hi)
    (hfit : p = kp → cutOff k = k ∧ first ≤ k ∧ k ≤ cutOff hi)
    (hG : ∀ c, G c → g.parent c = p → g.child c ≤ kp * g.width + k ∧ g.digit c ∈ ordinals ∧
      first ≤ g.digit c ∧ g.digit c ≤ cutOff hi)
    (hbody : ∀ x ∈ ordinals, first ≤ x → x ≤ cutOff hi → ∀ q,
      Enters d tight' (kp * g.width + k) (p * g.width + (x : ℕ)) q →
        EndsBy latestFirst d (fun c => G c ∧ g.child c = p * g.width + (x : ℕ)) dead
          (body x q)) :
    EndsBy latestFirst d (fun c => G c ∧ g.parent c = p) dead
      (levelBack ordinals first cutOff upperBound reset body q) := by
  obtain ⟨stop, q', hbound, hle, hcut', hres, hon, hlater, hwithin, hstop⟩ :
      ∃ stop q', upperBound q = (stop, q') ∧ first ≤ cutOff stop ∧
        (cutOff stop = stop ∨ (cutOff stop < stop ∧ q' = spent d)) ∧ reset q' = spent d ∧
        Enters d tight' (kp * g.width + k) (p * g.width + stop) q' ∧
        (∀ x : ℕ, x < stop → Enters d tight' (kp * g.width + k) (p * g.width + x) (spent d)) ∧
        cutOff stop ≤ cutOff hi ∧ ∀ c, G c → g.parent c = p → g.digit c ≤ cutOff stop := by
    rcases hq with ⟨rfl, rfl⟩ | ⟨rfl, hp⟩
    · obtain ⟨hk, hfirstk, hkhi⟩ := hfit rfl
      refine ⟨k, tight', htight, by omega, Or.inl hk, hreset', Or.inl ⟨rfl, rfl⟩,
        fun x hx => Or.inr ⟨rfl, by omega⟩, by omega, fun c hc hpar => ?_⟩
      have h1 := (hG c hc hpar).1
      rw [g.child_eq, hpar] at h1
      omega
    · have hw : (p + 1) * (g.width : ℤ) ≤ kp * g.width :=
        mul_le_mul_of_nonneg_right (by omega) (by omega)
      rw [add_mul, one_mul] at hw
      refine ⟨hi, spent d, hloose, hfirst, ?_, hreset, Or.inr ⟨rfl, by omega⟩,
        fun x hx => Or.inr ⟨rfl, by omega⟩, le_rfl, fun c hc hpar => (hG c hc hpar).2.2.2⟩
      rcases hcut.lt_or_eq with hlt | heq
      · exact Or.inr ⟨hlt, rfl⟩
      · exact Or.inl heq
  have hlevel : EndsBy latestFirst d (fun c => ∃ x ∈ ordinals, first ≤ x ∧ x ≤ cutOff stop ∧
      (G c ∧ g.child c = p * g.width + (x : ℕ))) dead
      (levelBack ordinals first cutOff upperBound reset body q) := by
    refine Cron.levelBack_endsBy (A := fun q x => Enters d tight' (kp * g.width + k)
      (p * g.width + (x : ℕ)) q) hbound hle hcut' hres (fun _ => hon) hlater ?_ ?_
    · rintro x y c c' hxy ⟨-, hc⟩ ⟨-, hc'⟩
      apply g.key_lt
      omega
    · intro x hx hx' hx'' q' hq'
      exact hbody x hx hx' (by omega) q' hq'
  refine hlevel.congr fun c => ⟨?_, ?_⟩
  · rintro ⟨x, -, -, hx, hc, hchild⟩
    exact ⟨hc, g.parent_eq (by omega) hchild⟩
  · rintro ⟨hc, hpar⟩
    obtain ⟨-, hmem, hge, -⟩ := hG c hc hpar
    refine ⟨g.digit c, hmem, hge, hstop c hc hpar, hc, ?_⟩
    rw [g.child_eq, hpar]

/-! ## The nested loops -/

/-- The moments a backward search looks for. -/
def TargetBack (s : ScheduleFields) (d : DateTime) (Y : ℕ) (c : Civil) : Prop :=
  Matches s c ∧ c.key ≤ bound d Y

theorem TargetBack.bounds {s : ScheduleFields} {Y : ℕ} {c : Civil} (h : TargetBack s d Y c) :
    c.key ≤ bound d Y ∧ c.minuteKey ≤ boundMinute d Y ∧ c.hourKey ≤ boundHour d Y ∧
      c.date.key ≤ boundDate d Y ∧ c.date.monthKey ≤ boundMonth d Y ∧ c.date.year ≤ (Y : ℤ) := by
  have h0 := h.2
  have h1 : d.second < 60 := d.civil.second_lt
  have h2 : d.minute < 60 := d.civil.minute_lt
  have h3 : d.hour < 24 := d.civil.hour_lt
  have h4 : d.day < 32 := d.civil.date.day_lt
  have h5 : d.month ≤ 12 := d.civil.date.month_le
  have hmin : c.minuteKey ≤ boundMinute d Y := by
    unfold bound Civil.key at h0
    omega
  have hhour : c.hourKey ≤ boundHour d Y := by
    unfold boundMinute Civil.minuteKey at hmin
    omega
  have hdate : c.date.key ≤ boundDate d Y := by
    unfold boundHour Civil.hourKey at hhour
    omega
  have hmonth : c.date.monthKey ≤ boundMonth d Y := by
    unfold boundDate Date.key at hdate
    omega
  refine ⟨h0, hmin, hhour, hdate, hmonth, ?_⟩
  unfold boundMonth Date.monthKey at hmonth
  omega

section Loops

variable {s : ScheduleFields} {Y : ℕ}

theorem trySecondsBack_endsBy (hs : s.WellFormed) {D : Date} {year hour minute : ℕ}
    (hD : DayMatches s D year) (hh : hour ∈ s.hours.ordinals) (hm : minute ∈ s.minutes.ordinals)
    {q : PrevFromQuery} (hq : Enters d ⟨d, false, false, false, false, true⟩ (boundMinute d Y)
      ((D.key * 24 + hour) * 60 + minute) q) :
    EndsBy latestFirst d
      (fun c => TargetBack s d Y c ∧ c.minuteKey = (D.key * 24 + hour) * 60 + minute)
      (∀ c, TargetBack s d Y c → c.date ≠ D)
      (trySecondsBack s year D.month D.day hour minute q) := by
  have hhour : hour < 24 := Nat.lt_succ_of_le ((hs .hours).supported hour hh).2
  have hminute : minute < 60 := Nat.lt_succ_of_le ((hs .minutes).supported minute hm).2
  have hsecond : d.second ≤ 59 := Nat.le_of_lt_succ d.civil.second_lt
  refine Digit.second.levelBack_endsBy hq rfl rfl rfl rfl (by decide) le_rfl (by decide)
    (fun _ => ⟨rfl, Nat.zero_le _, hsecond⟩) (fun c hc _ => ?_) fun x hx _ hle q' hq' => ?_
  · exact ⟨hc.bounds.1, hc.1.second, Nat.zero_le _, Nat.le_of_lt_succ c.second_lt⟩
  · have hspent : q' = spent d := by
      rcases hq' with ⟨h, -⟩ | ⟨h, -⟩ <;> exact h
    have hbound : ((D.key * 24 + hour) * 60 + minute) * 60 + x ≤ bound d Y := by
      rcases hq' with ⟨-, h⟩ | ⟨-, h⟩
      · exact h.ge
      · exact h.le
    rw [hspent]
    exact trySecond_endsBy (c := ⟨D, hour, minute, x, hhour, hminute, Nat.lt_succ_of_le hle⟩) hs
      (fun c h => h.1) hD hh hm hx fun hmatch => ⟨hmatch, hbound⟩

theorem tryMinutesBack_endsBy (hs : s.WellFormed) {D : Date} {year hour : ℕ}
    (hD : DayMatches s D year) (hh : hour ∈ s.hours.ordinals) {q : PrevFromQuery}
    (hq : Enters d ⟨d, false, false, false, true, true⟩ (boundHour d Y) (D.key * 24 + hour) q) :
    EndsBy latestFirst d (fun c => TargetBack s d Y c ∧ c.hourKey = D.key * 24 + hour)
      (∀ c, TargetBack s d Y c → c.date ≠ D) (tryMinutesBack s year D.month D.day hour q) := by
  have hminute : d.minute ≤ 59 := Nat.le_of_lt_succ d.civil.minute_lt
  refine Digit.minute.levelBack_endsBy hq rfl rfl rfl rfl (by decide) le_rfl (by decide)
    (fun _ => ⟨rfl, Nat.zero_le _, hminute⟩) (fun c hc _ => ?_) fun x hx _ _ q' hq' => ?_
  · exact ⟨hc.bounds.2.1, hc.1.minute, Nat.zero_le _, Nat.le_of_lt_succ c.minute_lt⟩
  · exact onExhausted_endsBy rfl (trySecondsBack_endsBy hs hD hh hx hq')

theorem tryHoursBack_endsBy (hs : s.WellFormed) {D : Date} {year : ℕ} (hD : DayMatches s D year)
    {q : PrevFromQuery}
    (hq : Enters d ⟨d, false, false, true, true, true⟩ (boundDate d Y) D.key q) :
    EndsBy latestFirst d (fun c => TargetBack s d Y c ∧ c.date.key = D.key)
      (∀ c, TargetBack s d Y c → c.date ≠ D) (tryHoursBack s year D.month D.day q) := by
  have hhour : d.hour ≤ 23 := Nat.le_of_lt_succ d.civil.hour_lt
  refine Digit.hour.levelBack_endsBy hq rfl rfl rfl rfl (by decide) le_rfl (by decide)
    (fun _ => ⟨rfl, Nat.zero_le _, hhour⟩) (fun c hc _ => ?_) fun x hx _ _ q' hq' => ?_
  · exact ⟨hc.bounds.2.2.1, hc.1.hour, Nat.zero_le _, Nat.le_of_lt_succ c.hour_lt⟩
  · exact onExhausted_endsBy rfl (tryMinutesBack_endsBy hs hD hx hq')

/-- The loop whose range is cut off at the end of the month. -/
theorem tryDaysBack_endsBy (hs : s.WellFormed) {year month : ℕ} (hy : year ∈ s.years.ordinals)
    (hm : month ∈ s.months.ordinals) {q : PrevFromQuery}
    (hq : Enters d ⟨d, false, true, true, true, true⟩ (boundMonth d Y) (year * 13 + month) q)
    (hfit : (year * 13 + month : ℤ) = boundMonth d Y → d.day ≤ daysInMonth month year) :
    EndsBy latestFirst d (fun c => TargetBack s d Y c ∧ c.date.monthKey = year * 13 + month) False
      (tryDaysBack s year month q) := by
  have hmonth : month ≤ 12 := ((hs .months).supported month hm).2
  have hdays := daysInMonth_bounds year month
  rw [← daysInMonth_eq] at hdays
  have hcut : min (daysInMonth month year) TimeUnit.daysOfMonth.inclusiveMax =
      daysInMonth month year := min_eq_left hdays.2
  have hlo : 1 ≤ daysInMonth month year := le_trans (by decide) hdays.1
  refine Digit.day.levelBack_endsBy hq rfl rfl rfl rfl (by decide) (min_le_right _ _)
    (by rw [hcut]; exact hlo) (fun hp => ?_) (fun c hc hpar => ?_) fun x hx _ hle q' hq' => ?_
  · have hday := hfit hp
    exact ⟨min_eq_right hday, d.civil.date.day_pos, by rw [hcut]; exact hday⟩
  · have hday : c.date.day ≤ daysInMonth month year := day_le_of_monthKey hmonth hpar
    exact ⟨hc.bounds.2.2.2.1, hc.1.day, c.date.day_pos, by rw [hcut]; exact hday⟩
  · rw [hcut] at hle
    obtain ⟨D, hmatch, rfl, rfl, hkey⟩ := exists_dayMatches hs hy hm hx hle
    have hhours := tryHoursBack_endsBy hs hmatch (d := d) (Y := Y) (q := q')
      (by rw [hkey]; exact hq')
    rw [hkey] at hhours
    refine dayLoop_endsBy (fun hdead c hc => ?_) (onExhausted_endsBy rfl hhours)
    exact hdead c hc.1 (Date.ext_key (hc.2.trans hkey.symm))

theorem tryMonthsBack_endsBy (hs : s.WellFormed) {year : ℕ} (hy : year ∈ s.years.ordinals)
    {q : PrevFromQuery} (hq : Enters d ⟨d, true, true, true, true, true⟩ Y year q)
    (hfit : d.day ≤ daysInMonth d.month Y) :
    EndsBy latestFirst d (fun c => TargetBack s d Y c ∧ c.date.year = year) False
      (tryMonthsBack s year q) := by
  have hd12 : d.month ≤ 12 := d.civil.date.month_le
  refine Digit.month.levelBack_endsBy hq rfl rfl rfl rfl (by decide) le_rfl (by decide)
    (fun _ => ⟨rfl, d.civil.date.month_pos, hd12⟩) (fun c hc _ => ?_) fun x hx _ hle q' hq' => ?_
  · exact ⟨hc.bounds.2.2.2.2.1, hc.1.month, c.date.month_pos, c.date.month_le⟩
  · refine onExhausted_endsBy rfl (tryDaysBack_endsBy hs hy hx hq' fun hpos => ?_)
    have hx12 : x ≤ 12 := hle
    unfold boundMonth at hpos
    have hyear : year = Y := by omega
    have hmonth : x = d.month := by omega
    rw [hyear, hmonth]
    exact hfit

/-- The walk back over the years, from the last one on. -/
theorem scanYearsBack_endsBy (hs : s.WellFormed) {l : List ℕ} (hl : (Y :: l).Pairwise (· > ·))
    (hy : ∀ y ∈ Y :: l, y ∈ s.years.ordinals) (hfit : d.day ≤ daysInMonth d.month Y) :
    EndsBy latestFirst d (fun c => ∃ y ∈ Y :: l, TargetBack s d Y c ∧ c.date.year = (y : ℕ)) False
      (scan (tryMonthsBack s) (Y :: l) ⟨d, true, true, true, true, true⟩) := by
  refine scan_endsBy (A := fun q y => Enters d ⟨d, true, true, true, true, true⟩ Y y q) ?_ hl
    (fun y hy' q hq => tryMonthsBack_endsBy hs (hy y hy') hq hfit) (fun y hy' => ?_)
    (fun y hy' => ?_) (by simp)
  · rintro y y' c c' hlt ⟨-, hc⟩ ⟨-, hc'⟩
    have hkey : c'.key < c.key := by
      apply Digit.month.key_lt
      have h1 := c.date.month_le
      have h2 := c'.date.month_le
      simp only [Digit.month, Date.monthKey]
      omega
    unfold latestFirst
    omega
  · have heq : Y = y := by simpa using hy'
    exact Or.inl ⟨rfl, by rw [heq]⟩
  · have hlt := (List.pairwise_cons.mp hl).1 y hy'
    exact Or.inr ⟨rfl, by omega⟩

end Loops

/-! ## The whole search -/

/-- The greatest of some moments, or none if there are none. -/
def GreatestOf (T : Civil → Prop) : Option DateTime → Prop
  | none => ∀ c, ¬ T c
  | some t => t.nanos = 0 ∧ T t.civil ∧ ∀ c, T c → c.key ≤ t.civil.key

/-- The last year of a schedule up to that of an instant. -/
def LastYear (s : ScheduleFields) (d : DateTime) (Y : ℕ) : Prop :=
  Y ∈ s.years.ordinals ∧ Y ≤ asU32 d.year ∧ ∀ y ∈ s.years.ordinals, y ≤ asU32 d.year → y ≤ Y

theorem mem_yearsBack {s : ScheduleFields} {y : ℕ} :
    y ∈ (s.years.ordinals.below (asU32 d.year)).reverse ↔
      y ∈ s.years.ordinals ∧ y ≤ asU32 d.year := by
  rw [List.mem_reverse, SortedSet.mem_below]

theorem yearsBack_sorted {s : ScheduleFields} :
    (s.years.ordinals.below (asU32 d.year)).reverse.Pairwise (· > ·) :=
  List.pairwise_reverse.mpr (s.years.ordinals.below_sorted _)

theorem LastYear.below_eq {s : ScheduleFields} {Y : ℕ} (h : LastYear s d Y) :
    ∃ l, (s.years.ordinals.below (asU32 d.year)).reverse = Y :: l := by
  refine SortedSet.eq_cons_of_first yearsBack_sorted (mem_yearsBack.mpr ⟨h.1, h.2.1⟩) fun y hy => ?_
  obtain ⟨h1, h2⟩ := mem_yearsBack.mp hy
  exact not_lt.mpr (h.2.2 y h1 h2)

theorem prevBefore_of_no_year {s : Schedule} {before : DateTime} (hd : before.subSecond = .ok d)
    (h : ∀ y ∈ s.fields.years.ordinals, asU32 d.year < y) : s.prevBefore before = .ok none := by
  have hnil : (s.fields.years.ordinals.below (asU32 d.year)).reverse = [] := by
    rw [List.eq_nil_iff_forall_not_mem]
    intro y hy
    obtain ⟨h1, h2⟩ := mem_yearsBack.mp hy
    have := h y h1
    omega
  simp [Schedule.prevBefore, PrevFromQuery.ofBefore, hd, PrevFromQuery.yearUpperBound, hnil, scan,
    bind, Except.bind, pure, Except.pure]

/-- Beginning in year `Y`, the search finds the greatest moment up to its bound. -/
theorem prevBefore_greatestOf {s : Schedule} (hs : s.fields.WellFormed) {before : DateTime}
    (hd : before.subSecond = .ok d) {Y : ℕ} (hY : LastYear s.fields d Y)
    (hfit : d.day ≤ daysInMonth d.month Y) :
    ∃ r, s.prevBefore before = .ok r ∧ GreatestOf (TargetBack s.fields d Y) r := by
  obtain ⟨l, hl⟩ := hY.below_eq
  have hsorted := yearsBack_sorted (s := s.fields) (d := d)
  have hmem : ∀ y, y ∈ Y :: l ↔ y ∈ s.fields.years.ordinals ∧ y ≤ asU32 d.year := by
    intro y
    rw [← hl]
    exact mem_yearsBack
  rw [hl] at hsorted
  have hends : EndsBy latestFirst d (TargetBack s.fields d Y) False
      (scan (tryMonthsBack s.fields) (Y :: l) ⟨d, true, true, true, true, true⟩) := by
    refine (scanYearsBack_endsBy hs hsorted (fun y hy => ((hmem y).mp hy).1) hfit).congr
      fun c => ?_
    constructor
    · rintro ⟨y, -, hc, -⟩
      exact hc
    · intro hc
      obtain ⟨y, hy, hcy⟩ := hc.1.year
      have hle := hc.bounds.2.2.2.2.2
      have hlast := hY.2.1
      exact ⟨y, (hmem y).mpr ⟨hy, by omega⟩, hc, hcy⟩
  obtain ⟨o, q, hscan, hset, -⟩ := hends
  cases o with
  | exhausted =>
    refine ⟨none, ?_, hset⟩
    simp only [Schedule.prevBefore, PrevFromQuery.ofBefore, hd, PrevFromQuery.yearUpperBound, hl,
      hscan, bind, Except.bind, pure, Except.pure]
  | nextDay => exact absurd hset id
  | found t =>
    obtain ⟨hnanos, ht, hgreatest⟩ := hset
    refine ⟨some t, ?_, hnanos, ht, fun c hc => ?_⟩
    · simp only [Schedule.prevBefore, PrevFromQuery.ofBefore, hd, PrevFromQuery.yearUpperBound, hl,
        hscan, bind, Except.bind, pure, Except.pure]
    · exact neg_le_neg_iff.mp (hgreatest c hc)

end Antegen.Cron
