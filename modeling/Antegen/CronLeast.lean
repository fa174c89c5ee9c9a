import Antegen.CronSearch

/-!
# The search finds the least moment

The position of the search is a number: the lexicographic order of the components fixed
so far. A bound is met by all components together, so each loop is entered either on
the bound, with all smaller bounds still to be handed out, or beyond it, with none
left. From there each loop finds the least moment with its components, and all loops
together find the least moment from the bound on. A single loop is described for any rank
of the civil times, since the backward search has the same loops.
-/
namespace Antegen.Cron

open Calendar

/-- The civil times a schedule selects. -/
structure Matches (s : ScheduleFields) (c : Civil) : Prop where
  year : ∃ y ∈ s.years.ordinals, c.date.year = y
  month : c.date.month ∈ s.months.ordinals
  day : c.date.day ∈ s.daysOfMonth.ordinals
  hour : c.hour ∈ s.hours.ordinals
  minute : c.minute ∈ s.minutes.ordinals
  second : c.second ∈ s.seconds.ordinals
  weekday : c.date.weekday ∈ s.daysOfWeek.ordinals

/-- What an outcome says about the moments `T` that a loop looks for. A jump to the next
day says that the day is dead. -/
def Settled (T : Civil → Prop) (dead : Prop) : Outcome → Prop
  | .exhausted => ∀ c, ¬ T c
  | .nextDay => dead
  | .found t => t.nanos = 0 ∧ T t.civil ∧ ∀ c, T c → t.civil.key ≤ c.key

/-- All bounds of a query have been handed out. -/
def spent (d : DateTime) : NextAfterQuery := ⟨d, false, false, false, false, false⟩

/-- A search that settles its moments and, unless it finds one, leaves no bound behind. -/
def Ends (d : DateTime) (T : Civil → Prop) (dead : Prop)
    (r : Result (Outcome × NextAfterQuery)) : Prop :=
  ∃ o q, r = .ok (o, q) ∧ Settled T dead o ∧ ((∀ t, o ≠ .found t) → q = spent d)

/-- As `Settled`, for the first moment in the order of a rank. -/
def SettledBy (rank : Civil → ℤ) (T : Civil → Prop) (dead : Prop) : Outcome → Prop
  | .exhausted => ∀ c, ¬ T c
  | .nextDay => dead
  | .found t => t.nanos = 0 ∧ T t.civil ∧ ∀ c, T c → rank t.civil ≤ rank c

def EndsBy (rank : Civil → ℤ) (d : DateTime) (T : Civil → Prop) (dead : Prop)
    (r : Result (Outcome × NextAfterQuery)) : Prop :=
  ∃ o q, r = .ok (o, q) ∧ SettledBy rank T dead o ∧ ((∀ t, o ≠ .found t) → q = spent d)

variable {rank : Civil → ℤ} {d : DateTime} {dead : Prop}

theorem endsBy_key {T : Civil → Prop} {r : Result (Outcome × NextAfterQuery)} :
    EndsBy Civil.key d T dead r ↔ Ends d T dead r := Iff.rfl

theorem EndsBy.congr {T T' : Civil → Prop} {r : Result (Outcome × NextAfterQuery)}
    (h : EndsBy rank d T dead r) (hT : ∀ c, T c ↔ T' c) : EndsBy rank d T' dead r := by
  have heq : T = T' := funext fun c => propext (hT c)
  rw [← heq]
  exact h

theorem Ends.congr {T T' : Civil → Prop} {r : Result (Outcome × NextAfterQuery)}
    (h : Ends d T dead r) (hT : ∀ c, T c ↔ T' c) : Ends d T' dead r :=
  EndsBy.congr (endsBy_key.mpr h) hT

/-! ## One loop -/

/-- A walk in the order of the rank settles the moments of all its ordinals. -/
theorem scan_endsBy {body : ℕ → Search} {A : NextAfterQuery → ℕ → Prop} {T : ℕ → Civil → Prop}
    {before : ℕ → ℕ → Prop}
    (hmono : ∀ x y c c', before x y → T x c → T y c' → rank c < rank c') {l : List ℕ}
    (hl : l.Pairwise before)
    (hbody : ∀ x ∈ l, ∀ q, A q x → EndsBy rank d (T x) dead (body x q)) {q : NextAfterQuery}
    (hhead : ∀ x, l.head? = some x → A q x) (htail : ∀ x ∈ l.tail, A (spent d) x)
    (hnil : l = [] → q = spent d) :
    EndsBy rank d (fun c => ∃ x ∈ l, T x c) dead (scan body l q) := by
  induction l generalizing q with
  | nil => exact ⟨.exhausted, q, rfl, by simp [SettledBy], fun _ => hnil rfl⟩
  | cons x l ih =>
    obtain ⟨hx, hl'⟩ := List.pairwise_cons.mp hl
    obtain ⟨o, q', hbx, hset, hq'⟩ := hbody x (by simp) q (hhead x rfl)
    cases o with
    | exhausted =>
      have hspent : q' = spent d := hq' (by simp)
      have hhead' : ∀ y, l.head? = some y → A q' y := by
        intro y hy
        rw [hspent]
        exact htail y (List.mem_of_mem_head? hy)
      have htail' : ∀ y ∈ l.tail, A (spent d) y := fun y hy => htail y (List.mem_of_mem_tail hy)
      obtain ⟨o, q'', hscan, hset', hq''⟩ :=
        ih hl' (fun y hy => hbody y (by simp [hy])) hhead' htail' (fun _ => hspent)
      refine EndsBy.congr ⟨o, q'', ?_, hset', hq''⟩ fun c => ?_
      · rw [scan, hbx]
        exact hscan
      · have hno : ¬ T x c := hset c
        simp [hno]
    | nextDay =>
      refine ⟨.nextDay, q', ?_, hset, hq'⟩
      rw [scan, hbx]
      rfl
    | found t =>
      obtain ⟨hnanos, ht, hleast⟩ := hset
      refine ⟨.found t, q', ?_, ⟨hnanos, ⟨x, by simp, ht⟩, ?_⟩, hq'⟩
      · rw [scan, hbx]
        rfl
      · rintro c ⟨y, hy, hc⟩
        rcases List.mem_cons.mp hy with rfl | hy
        · exact hleast c hc
        · exact (hmono x y _ c (hx y hy) ht hc).le

/-- The walk of a loop: its bound `start` comes first if it is walked at all, and all bounds
are spent from the next ordinal on. -/
theorem walk_endsBy {body : ℕ → Search} {A : NextAfterQuery → ℕ → Prop} {T : ℕ → Civil → Prop}
    {before : ℕ → ℕ → Prop}
    (hmono : ∀ x y c c', before x y → T x c → T y c' → rank c < rank c') {l : List ℕ}
    (hl : l.Pairwise before) (start : ℕ) (hstart : ∀ x ∈ l, ¬ before x start)
    (hbody : ∀ x ∈ l, ∀ q, A q x → EndsBy rank d (T x) dead (body x q)) {q : NextAfterQuery}
    (hon : start ∈ l → A q start) (hoff : start ∉ l → q = spent d)
    (hlater : ∀ x ∈ l, x ≠ start → A (spent d) x) :
    EndsBy rank d (fun c => ∃ x ∈ l, T x c) dead (scan body l q) := by
  by_cases hmem : start ∈ l
  · obtain ⟨rest, rfl⟩ := SortedSet.eq_cons_of_first hl hmem hstart
    refine scan_endsBy hmono hl hbody (fun x hx => ?_) (fun x hx => ?_) (by simp)
    · have heq : start = x := by simpa using hx
      rw [← heq]
      exact hon hmem
    · have hafter := (List.pairwise_cons.mp hl).1 x hx
      refine hlater x (by simp [show x ∈ rest from hx]) ?_
      rintro rfl
      exact hstart x hmem hafter
  · have hne : ∀ x ∈ l, x ≠ start := by
      rintro x hx rfl
      exact hmem hx
    have hspent := hoff hmem
    refine scan_endsBy hmono hl hbody (fun x hx => ?_) (fun x hx => ?_) fun _ => hspent
    · have hx' := List.mem_of_mem_head? hx
      rw [hspent]
      exact hlater x hx' (hne x hx')
    · have hx' := List.mem_of_mem_tail hx
      exact hlater x hx' (hne x hx')

/-- A loop settles the moments of all its ordinals from the lower bound on. -/
theorem level_ends {ordinals : OrdinalSet} {last start : ℕ}
    {lowerBound : NextAfterQuery → ℕ × NextAfterQuery} {reset : NextAfterQuery → NextAfterQuery}
    {body : ℕ → Search} {A : NextAfterQuery → ℕ → Prop} {T : ℕ → Civil → Prop}
    {q q' : NextAfterQuery} (hbound : lowerBound q = (start, q')) (hle : start ≤ last)
    (hreset : reset q' = spent d) (hfirst : start ∈ ordinals → A q' start)
    (hlater : ∀ x, start < x → A (spent d) x)
    (hmono : ∀ x y c c', x < y → T x c → T y c' → c.key < c'.key)
    (hbody : ∀ x ∈ ordinals, start ≤ x → x ≤ last → ∀ q, A q x → Ends d (T x) dead (body x q)) :
    Ends d (fun c => ∃ x ∈ ordinals, start ≤ x ∧ x ≤ last ∧ T x c) dead
      (level ordinals last lowerBound reset body q) := by
  obtain ⟨l, hrange, hsorted, hmem⟩ := ordinals.range_eq_some hle
  have hlevel : level ordinals last lowerBound reset body q =
      scan body l (if start ∈ ordinals then q' else reset q') := by
    simp [level, hbound, hrange, ofOption, bind, Except.bind]
  rw [hlevel]
  have hscan : EndsBy Civil.key d (fun c => ∃ x ∈ l, T x c) dead
      (scan body l (if start ∈ ordinals then q' else reset q')) := by
    refine walk_endsBy (A := A) hmono hsorted start (fun x hx => ?_) (fun x hx => ?_)
      (fun hin => ?_) (fun hout => ?_) fun x hx hne => ?_
    · have := ((hmem x).mp hx).2.1
      omega
    · obtain ⟨h1, h2, h3⟩ := (hmem x).mp hx
      exact hbody x h1 h2 h3
    · have hstart := ((hmem start).mp hin).1
      rw [if_pos hstart]
      exact hfirst hstart
    · have hstart : start ∉ ordinals := fun h => hout ((hmem start).mpr ⟨h, le_rfl, hle⟩)
      rw [if_neg hstart, hreset]
    · have := ((hmem x).mp hx).2.1
      exact hlater x (by omega)
  refine hscan.congr fun c => ?_
  simp only [hmem, and_assoc]

theorem onExhausted_endsBy {T : Civil → Prop} {reset : NextAfterQuery → NextAfterQuery}
    {inner : Search} {q : NextAfterQuery} (hreset : reset (spent d) = spent d)
    (h : EndsBy rank d T dead (inner q)) :
    EndsBy rank d T dead (onExhausted reset inner q) := by
  obtain ⟨o, q', hin, hset, hq'⟩ := h
  cases o with
  | exhausted =>
    refine ⟨.exhausted, reset q', ?_, hset, fun _ => ?_⟩
    · simp [onExhausted, hin, bind, Except.bind, pure, Except.pure]
    · rw [hq' (by simp), hreset]
  | nextDay =>
    refine ⟨.nextDay, q', ?_, hset, hq'⟩
    simp [onExhausted, hin, bind, Except.bind, pure, Except.pure]
  | found t =>
    refine ⟨.found t, q', ?_, hset, hq'⟩
    simp [onExhausted, hin, bind, Except.bind, pure, Except.pure]

/-- The loop over days takes a dead day for one without moments. -/
theorem dayLoop_endsBy {T : Civil → Prop} {inner : Search} {q : NextAfterQuery}
    (hdead : dead → ∀ c, ¬ T c) (h : EndsBy rank d T dead (inner q)) :
    EndsBy rank d T False (dayLoop inner q) := by
  obtain ⟨o, q', hin, hset, hq'⟩ := h
  cases o with
  | exhausted =>
    refine ⟨.exhausted, q', ?_, hset, hq'⟩
    simp [dayLoop, hin, bind, Except.bind, pure, Except.pure]
  | nextDay =>
    refine ⟨.exhausted, q', ?_, hdead hset, fun _ => hq' (by simp)⟩
    simp [dayLoop, hin, bind, Except.bind, pure, Except.pure]
  | found t =>
    refine ⟨.found t, q', ?_, hset, hq'⟩
    simp [dayLoop, hin, bind, Except.bind, pure, Except.pure]

theorem onExhausted_ends {T : Civil → Prop} {reset : NextAfterQuery → NextAfterQuery}
    {inner : Search} {q : NextAfterQuery} (hreset : reset (spent d) = spent d)
    (h : Ends d T dead (inner q)) : Ends d T dead (onExhausted reset inner q) :=
  onExhausted_endsBy hreset (endsBy_key.mpr h)

theorem dayLoop_ends {T : Civil → Prop} {inner : Search} {q : NextAfterQuery}
    (hdead : dead → ∀ c, ¬ T c) (h : Ends d T dead (inner q)) :
    Ends d T False (dayLoop inner q) :=
  dayLoop_endsBy hdead (endsBy_key.mpr h)

/-! ## Candidates -/

theorem yearStart_le {y y' : ℤ} (h : y ≤ y') : yearStart y ≤ yearStart y' := by
  rcases h.lt_or_eq with h | rfl
  · have := yearStart_mono h
    omega
  · exact le_rfl

/-- Between 1970 and 2100 every civil time is an instant. -/
theorem withYmdAndHms_civil (c : Civil) (hmin : 1970 ≤ c.date.year) (hmax : c.date.year ≤ 2100) :
    ∃ t, DateTime.withYmdAndHms c.date.year c.date.month c.date.day c.hour c.minute c.second =
      some t ∧ t.civil = c ∧ t.nanos = 0 := by
  have h1 := yearStart_le hmin
  have h2 : yearStart (c.date.year + 1) ≤ yearStart 2101 := yearStart_le (by omega)
  have h3 := c.date.yearStart_le_dayNumber
  have h4 := c.date.dayNumber_lt_year
  have h5 : yearStart 1970 = 719162 := by decide
  have h6 : yearStart 2101 = 767009 := by decide
  rw [yearStart_succ] at h2
  have hh := c.hour_lt
  have hm := c.minute_lt
  have hs := c.second_lt
  have hrange : (minTimestamp ≤ c.timestamp ∧ c.timestamp ≤ maxTimestamp) ∧ 0 < 2000000000 := by
    unfold minTimestamp maxTimestamp Civil.timestamp epochDay
    omega
  have hvalid : ((1 ≤ c.date.month ∧ c.date.month ≤ 12) ∧ 1 ≤ c.date.day ∧
      c.date.day ≤ Calendar.daysInMonth c.date.year c.date.month) ∧
      c.hour < 24 ∧ c.minute < 60 ∧ c.second < 60 :=
    ⟨⟨⟨c.date.month_pos, c.date.month_le⟩, c.date.day_pos, c.date.day_le⟩, hh, hm, hs⟩
  refine ⟨⟨c.timestamp, 0, hrange.1.1, hrange.1.2, hrange.2⟩, ?_, ?_, rfl⟩
  · rw [DateTime.withYmdAndHms, dif_pos hvalid]
    exact dif_pos hrange
  · exact c.ofTimestamp_timestamp

theorem daysInMonth_eq (month year : ℕ) :
    daysInMonth month year = Calendar.daysInMonth year month := by
  have hleap : isLeapYear year = isLeap year := by
    have h4 : ((year : ℤ) % 4 = 0) ↔ year % 4 = 0 := by omega
    have h100 : ((year : ℤ) % 100 = 0) ↔ year % 100 = 0 := by omega
    have h400 : ((year : ℤ) % 400 = 0) ↔ year % 400 = 0 := by omega
    simp only [isLeapYear, isLeap, h4, h100, h400, ne_eq]
    by_cases ha : year % 4 = 0 <;> by_cases hb : year % 100 = 0 <;>
      by_cases hc : year % 400 = 0 <;> simp [ha, hb, hc]
  unfold daysInMonth Calendar.daysInMonth
  rw [hleap]
  split <;> simp_all

/-! ## Positions -/

/-- A loop at position `p` is entered on the bound `k` or beyond it. -/
def Enters (d : DateTime) (tight : NextAfterQuery) (p k : ℤ) (q : NextAfterQuery) : Prop :=
  (q = tight ∧ p = k) ∨ (q = spent d ∧ k < p)

/-- A component of civil times that extends the position of the loops around it. -/
structure Digit where
  width : ℕ
  digit : Civil → ℕ
  parent : Civil → ℤ
  child : Civil → ℤ
  child_eq : ∀ c, child c = parent c * width + digit c
  digit_lt : ∀ c, digit c < width
  key_lt : ∀ c c', child c < child c' → c.key < c'.key

theorem Digit.parent_eq (g : Digit) {c : Civil} {p : ℤ} {x : ℕ} (hx : x < g.width)
    (h : g.child c = p * g.width + x) : g.parent c = p := by
  have hd := g.digit_lt c
  have hstep : ∀ a b : ℤ, a < b → a * (g.width : ℤ) + g.width ≤ b * g.width := by
    intro a b hab
    have hw : (a + 1) * (g.width : ℤ) ≤ b * g.width :=
      mul_le_mul_of_nonneg_right (by omega) (by omega)
    rw [add_mul, one_mul] at hw
    exact hw
  rw [g.child_eq] at h
  rcases lt_trichotomy (g.parent c) p with hp | hp | hp
  · have := hstep _ _ hp
    omega
  · exact hp
  · have := hstep _ _ hp
    omega

/-- A loop over one component settles the moments of `G` at its position if its body
settles those at each extended position. -/
theorem Digit.level_ends (g : Digit) {G : Civil → Prop} {ordinals : OrdinalSet}
    {last lo k : ℕ} {lowerBound : NextAfterQuery → ℕ × NextAfterQuery}
    {reset : NextAfterQuery → NextAfterQuery} {body : ℕ → Search}
    {tight tight' q : NextAfterQuery} {p kp : ℤ} (hq : Enters d tight p kp q)
    (hloose : lowerBound (spent d) = (lo, spent d)) (htight : lowerBound tight = (k, tight'))
    (hreset : reset (spent d) = spent d) (hreset' : reset tight' = spent d) (hk : k < g.width)
    (hlo : lo ≤ last) (hlast : last < g.width) (hfit : p = kp → k ≤ last)
    (hG : ∀ c, G c → g.parent c = p → kp * g.width + k ≤ g.child c ∧ g.digit c ∈ ordinals ∧
      lo ≤ g.digit c ∧ g.digit c ≤ last)
    (hbody : ∀ x ∈ ordinals, x ≤ last → ∀ q,
      Enters d tight' (p * g.width + (x : ℕ)) (kp * g.width + k) q →
        Ends d (fun c => G c ∧ g.child c = p * g.width + (x : ℕ)) dead (body x q)) :
    Ends d (fun c => G c ∧ g.parent c = p) dead
      (level ordinals last lowerBound reset body q) := by
  obtain ⟨start, q', hbound, hle, hres, hfirst, hlater, hstart⟩ :
      ∃ start q', lowerBound q = (start, q') ∧ start ≤ last ∧ reset q' = spent d ∧
        Enters d tight' (p * g.width + start) (kp * g.width + k) q' ∧
        (∀ x : ℕ, start < x → Enters d tight' (p * g.width + x) (kp * g.width + k) (spent d)) ∧
        ∀ c, G c → g.parent c = p → start ≤ g.digit c := by
    rcases hq with ⟨rfl, rfl⟩ | ⟨rfl, hp⟩
    · refine ⟨k, tight', htight, hfit rfl, hreset', Or.inl ⟨rfl, rfl⟩, fun x hx => ?_,
        fun c hc hpar => ?_⟩
      · exact Or.inr ⟨rfl, by omega⟩
      · have h1 := (hG c hc hpar).1
        rw [g.child_eq, hpar] at h1
        omega
    · have hw : (kp + 1) * (g.width : ℤ) ≤ p * g.width :=
        mul_le_mul_of_nonneg_right (by omega) (by omega)
      rw [add_mul, one_mul] at hw
      refine ⟨lo, spent d, hloose, hlo, hreset, Or.inr ⟨rfl, by omega⟩, fun x hx => ?_,
        fun c hc hpar => (hG c hc hpar).2.2.1⟩
      exact Or.inr ⟨rfl, by omega⟩
  have hlevel : Ends d (fun c => ∃ x ∈ ordinals, start ≤ x ∧ x ≤ last ∧
      (G c ∧ g.child c = p * g.width + (x : ℕ))) dead
      (level ordinals last lowerBound reset body q) := by
    refine Cron.level_ends (A := fun q x => Enters d tight' (p * g.width + (x : ℕ))
      (kp * g.width + k) q) hbound hle hres (fun _ => hfirst) hlater ?_ ?_
    · rintro x y c c' hxy ⟨-, hc⟩ ⟨-, hc'⟩
      apply g.key_lt
      omega
    · intro x hx _ hx' q' hq'
      exact hbody x hx hx' q' hq'
  refine hlevel.congr fun c => ⟨?_, ?_⟩
  · rintro ⟨x, -, -, hx, hc, hchild⟩
    exact ⟨hc, g.parent_eq (by omega) hchild⟩
  · rintro ⟨hc, hpar⟩
    obtain ⟨-, hmem, -, hle'⟩ := hG c hc hpar
    refine ⟨g.digit c, hmem, hstart c hc hpar, hle', hc, ?_⟩
    rw [g.child_eq, hpar]

/-! ## The nested loops -/

namespace Digit

def second : Digit where
  width := 60
  digit := Civil.second
  parent := Civil.minuteKey
  child := Civil.key
  child_eq _ := rfl
  digit_lt := Civil.second_lt
  key_lt _ _ h := h

def minute : Digit where
  width := 60
  digit := Civil.minute
  parent := Civil.hourKey
  child := Civil.minuteKey
  child_eq _ := rfl
  digit_lt := Civil.minute_lt
  key_lt c c' h := by
    have h1 := c.second_lt
    have h2 := c'.second_lt
    unfold Civil.key
    omega

def hour : Digit where
  width := 24
  digit := Civil.hour
  parent c := c.date.key
  child := Civil.hourKey
  child_eq _ := rfl
  digit_lt := Civil.hour_lt
  key_lt c c' h := by
    apply minute.key_lt
    have h1 := c.minute_lt
    have h2 := c'.minute_lt
    simp only [minute, Civil.minuteKey]
    omega

def day : Digit where
  width := 32
  digit c := c.date.day
  parent c := c.date.monthKey
  child c := c.date.key
  child_eq _ := rfl
  digit_lt c := c.date.day_lt
  key_lt c c' h := by
    apply hour.key_lt
    have h1 := c.hour_lt
    have h2 := c'.hour_lt
    simp only [hour, Civil.hourKey]
    omega

def month : Digit where
  width := 13
  digit c := c.date.month
  parent c := c.date.year
  child c := c.date.monthKey
  child_eq _ := rfl
  digit_lt c := Nat.lt_succ_of_le c.date.month_le
  key_lt c c' h := by
    apply day.key_lt
    have h1 := c.date.day_lt
    have h2 := c'.date.day_lt
    simp only [day, Date.key]
    omega

end Digit

/-- The bound of a search that begins in year `Y`: the components of the initial instant
below the year. They need not form a date of that year. -/
def boundMonth (d : DateTime) (Y : ℕ) : ℤ := (Y : ℤ) * 13 + d.month

def boundDate (d : DateTime) (Y : ℕ) : ℤ := boundMonth d Y * 32 + d.day

def boundHour (d : DateTime) (Y : ℕ) : ℤ := boundDate d Y * 24 + d.hour

def boundMinute (d : DateTime) (Y : ℕ) : ℤ := boundHour d Y * 60 + d.minute

def bound (d : DateTime) (Y : ℕ) : ℤ := boundMinute d Y * 60 + d.second

/-- The moments a search looks for. -/
def Target (s : ScheduleFields) (d : DateTime) (Y : ℕ) (c : Civil) : Prop :=
  Matches s c ∧ bound d Y ≤ c.key

/-- A bound on a whole civil time bounds each of its positions. -/
theorem Target.bounds {s : ScheduleFields} {Y : ℕ} {c : Civil} (h : Target s d Y c) :
    bound d Y ≤ c.key ∧ boundMinute d Y ≤ c.minuteKey ∧ boundHour d Y ≤ c.hourKey ∧
      boundDate d Y ≤ c.date.key ∧ boundMonth d Y ≤ c.date.monthKey ∧ (Y : ℤ) ≤ c.date.year := by
  have h0 := h.2
  have h1 := c.second_lt
  have h2 := c.minute_lt
  have h3 := c.hour_lt
  have h4 := c.date.day_lt
  have h5 := c.date.month_le
  have hmin : boundMinute d Y ≤ c.minuteKey := by
    unfold bound Civil.key at h0
    omega
  have hhour : boundHour d Y ≤ c.hourKey := by
    unfold boundMinute Civil.minuteKey at hmin
    omega
  have hdate : boundDate d Y ≤ c.date.key := by
    unfold boundHour Civil.hourKey at hhour
    omega
  have hmonth : boundMonth d Y ≤ c.date.monthKey := by
    unfold boundDate Date.key at hdate
    omega
  refine ⟨h0, hmin, hhour, hdate, hmonth, ?_⟩
  unfold boundMonth Date.monthKey at hmonth
  omega

/-- A date whose components the schedule selects, its weekday apart. -/
structure DayMatches (s : ScheduleFields) (D : Date) (year : ℕ) : Prop where
  year_eq : D.year = year
  year : year ∈ s.years.ordinals
  month : D.month ∈ s.months.ordinals
  day : D.day ∈ s.daysOfMonth.ordinals

theorem exists_dayMatches {s : ScheduleFields} (hs : s.WellFormed) {year month day : ℕ}
    (hy : year ∈ s.years.ordinals) (hm : month ∈ s.months.ordinals)
    (hd : day ∈ s.daysOfMonth.ordinals) (hle : day ≤ daysInMonth month year) :
    ∃ D : Date, DayMatches s D year ∧ D.month = month ∧ D.day = day ∧
      D.key = (year * 13 + month) * 32 + day := by
  have hmonth := (hs .months).supported month hm
  have hday := (hs .daysOfMonth).supported day hd
  rw [daysInMonth_eq] at hle
  exact ⟨⟨year, month, day, hmonth.1, hmonth.2, hday.1, hle⟩, ⟨rfl, hy, hm, hd⟩, rfl, rfl, rfl⟩

/-- A position of the loop over months is a month of the calendar. -/
theorem day_le_of_monthKey {D : Date} {year month : ℕ} (hmonth : month ≤ 12)
    (h : D.monthKey = year * 13 + month) : D.day ≤ daysInMonth month year := by
  have hD12 := D.month_le
  unfold Date.monthKey at h
  have hDy : D.year = year := by omega
  have hDm : D.month = month := by omega
  have hday := D.day_le
  rw [hDy, hDm, ← daysInMonth_eq] at hday
  exact hday

section Loops

variable {s : ScheduleFields} {Y : ℕ}

/-- The innermost loop tries one moment, in either direction. -/
theorem trySecond_endsBy (hs : s.WellFormed) {T : Civil → Prop} (hT : ∀ c, T c → Matches s c)
    {c : Civil} {year : ℕ} (hD : DayMatches s c.date year) (hh : c.hour ∈ s.hours.ordinals)
    (hm : c.minute ∈ s.minutes.ordinals) (hsec : c.second ∈ s.seconds.ordinals)
    (hc : Matches s c → T c) :
    EndsBy rank d (fun c' => T c' ∧ c'.key = c.key) (∀ c', T c' → c'.date ≠ c.date)
      (trySecond s year c.date.month c.date.day c.hour c.minute c.second (spent d)) := by
  have hyear := (hs .years).supported year hD.year
  have hyear1 : 1970 ≤ year := hyear.1
  have hyear2 : year ≤ 2100 := hyear.2
  obtain ⟨t, ht, hciv, hnanos⟩ := withYmdAndHms_civil c (by rw [hD.year_eq]; omega)
    (by rw [hD.year_eq]; omega)
  rw [hD.year_eq] at ht
  have hweekday : t.weekday = c.date.weekday := by rw [DateTime.weekday, hciv]
  by_cases hw : c.date.weekday ∈ s.daysOfWeek.ordinals
  · have hmatch : Matches s c := ⟨⟨year, hD.year, hD.year_eq⟩, hD.month, hD.day, hh, hm, hsec, hw⟩
    refine ⟨.found t, spent d, ?_, ⟨hnanos, ?_, ?_⟩, fun h => absurd rfl (h t)⟩
    · simp [trySecond, ht, ofOption, bind, Except.bind, hweekday, hw, pure, Except.pure]
    · rw [hciv]
      exact ⟨hc hmatch, rfl⟩
    · rintro c' ⟨-, hkey⟩
      rw [hciv, Civil.ext_key hkey]
  · refine ⟨.nextDay, spent d, ?_, ?_, fun _ => rfl⟩
    · simp [trySecond, ht, ofOption, bind, Except.bind, hweekday, hw, pure, Except.pure]
    · intro c' hc' hdate
      have hw' := (hT c' hc').weekday
      rw [hdate] at hw'
      exact hw hw'

theorem trySeconds_ends (hs : s.WellFormed) {D : Date} {year hour minute : ℕ}
    (hD : DayMatches s D year) (hh : hour ∈ s.hours.ordinals) (hm : minute ∈ s.minutes.ordinals)
    {q : NextAfterQuery} (hq : Enters d ⟨d, false, false, false, false, true⟩
      ((D.key * 24 + hour) * 60 + minute) (boundMinute d Y) q) :
    Ends d (fun c => Target s d Y c ∧ c.minuteKey = (D.key * 24 + hour) * 60 + minute)
      (∀ c, Target s d Y c → c.date ≠ D) (trySeconds s year D.month D.day hour minute q) := by
  have hhour : hour < 24 := Nat.lt_succ_of_le ((hs .hours).supported hour hh).2
  have hminute : minute < 60 := Nat.lt_succ_of_le ((hs .minutes).supported minute hm).2
  refine Digit.second.level_ends hq rfl rfl rfl rfl d.civil.second_lt (by decide) (by decide)
    (fun _ => Nat.le_of_lt_succ d.civil.second_lt) (fun c hc _ => ?_) fun x hx hle q' hq' => ?_
  · exact ⟨hc.bounds.1, hc.1.second, Nat.zero_le _, Nat.le_of_lt_succ c.second_lt⟩
  · have hspent : q' = spent d := by
      rcases hq' with ⟨h, -⟩ | ⟨h, -⟩ <;> exact h
    have hbound : bound d Y ≤ ((D.key * 24 + hour) * 60 + minute) * 60 + x := by
      rcases hq' with ⟨-, h⟩ | ⟨-, h⟩
      · exact h.ge
      · exact h.le
    rw [hspent]
    exact trySecond_endsBy (c := ⟨D, hour, minute, x, hhour, hminute, Nat.lt_succ_of_le hle⟩) hs
      (fun c h => h.1) hD hh hm hx fun hmatch => ⟨hmatch, hbound⟩

theorem tryMinutes_ends (hs : s.WellFormed) {D : Date} {year hour : ℕ} (hD : DayMatches s D year)
    (hh : hour ∈ s.hours.ordinals) {q : NextAfterQuery}
    (hq : Enters d ⟨d, false, false, false, true, true⟩ (D.key * 24 + hour) (boundHour d Y) q) :
    Ends d (fun c => Target s d Y c ∧ c.hourKey = D.key * 24 + hour)
      (∀ c, Target s d Y c → c.date ≠ D) (tryMinutes s year D.month D.day hour q) := by
  refine Digit.minute.level_ends hq rfl rfl rfl rfl d.civil.minute_lt (by decide) (by decide)
    (fun _ => Nat.le_of_lt_succ d.civil.minute_lt) (fun c hc _ => ?_) fun x hx _ q' hq' => ?_
  · exact ⟨hc.bounds.2.1, hc.1.minute, Nat.zero_le _, Nat.le_of_lt_succ c.minute_lt⟩
  · exact onExhausted_ends rfl (trySeconds_ends hs hD hh hx hq')

theorem tryHours_ends (hs : s.WellFormed) {D : Date} {year : ℕ} (hD : DayMatches s D year)
    {q : NextAfterQuery}
    (hq : Enters d ⟨d, false, false, true, true, true⟩ D.key (boundDate d Y) q) :
    Ends d (fun c => Target s d Y c ∧ c.date.key = D.key)
      (∀ c, Target s d Y c → c.date ≠ D) (tryHours s year D.month D.day q) := by
  refine Digit.hour.level_ends hq rfl rfl rfl rfl d.civil.hour_lt (by decide) (by decide)
    (fun _ => Nat.le_of_lt_succ d.civil.hour_lt) (fun c hc _ => ?_) fun x hx _ q' hq' => ?_
  · exact ⟨hc.bounds.2.2.1, hc.1.hour, Nat.zero_le _, Nat.le_of_lt_succ c.hour_lt⟩
  · exact onExhausted_ends rfl (tryMinutes_ends hs hD hx hq')

theorem tryDays_ends (hs : s.WellFormed) {year month : ℕ} (hy : year ∈ s.years.ordinals)
    (hm : month ∈ s.months.ordinals) {q : NextAfterQuery}
    (hq : Enters d ⟨d, false, true, true, true, true⟩ (year * 13 + month) (boundMonth d Y) q)
    (hfit : (year * 13 + month : ℤ) = boundMonth d Y → d.day ≤ daysInMonth month year) :
    Ends d (fun c => Target s d Y c ∧ c.date.monthKey = year * 13 + month) False
      (tryDays s year month q) := by
  have hmonth : month ≤ 12 := ((hs .months).supported month hm).2
  have hdays := daysInMonth_bounds year month
  rw [← daysInMonth_eq] at hdays
  have hlo : TimeUnit.daysOfMonth.inclusiveMin ≤ daysInMonth month year :=
    le_trans (by decide) hdays.1
  refine Digit.day.level_ends hq rfl rfl rfl rfl d.civil.date.day_lt hlo
    (Nat.lt_succ_of_le hdays.2) hfit (fun c hc hpar => ?_) fun x hx hle q' hq' => ?_
  · exact ⟨hc.bounds.2.2.2.1, hc.1.day, c.date.day_pos, day_le_of_monthKey hmonth hpar⟩
  · obtain ⟨D, hmatch, rfl, rfl, hkey⟩ := exists_dayMatches hs hy hm hx hle
    have hhours := tryHours_ends hs hmatch (d := d) (Y := Y) (q := q') (by rw [hkey]; exact hq')
    rw [hkey] at hhours
    refine dayLoop_ends (fun hdead c hc => ?_) (onExhausted_ends rfl hhours)
    exact hdead c hc.1 (Date.ext_key (hc.2.trans hkey.symm))

theorem tryMonths_ends (hs : s.WellFormed) {year : ℕ} (hy : year ∈ s.years.ordinals)
    {q : NextAfterQuery} (hq : Enters d ⟨d, true, true, true, true, true⟩ year Y q)
    (hfit : d.month ∈ s.months.ordinals → d.day ≤ daysInMonth d.month Y) :
    Ends d (fun c => Target s d Y c ∧ c.date.year = year) False (tryMonths s year q) := by
  have hd12 : d.month ≤ 12 := d.civil.date.month_le
  refine Digit.month.level_ends hq rfl rfl rfl rfl (Nat.lt_succ_of_le hd12) (by decide) (by decide)
    (fun _ => hd12) (fun c hc _ => ?_) fun x hx hle q' hq' => ?_
  · exact ⟨hc.bounds.2.2.2.2.1, hc.1.month, c.date.month_pos, c.date.month_le⟩
  · refine onExhausted_ends rfl (tryDays_ends hs hy hx hq' fun hpos => ?_)
    have hx12 : x ≤ 12 := hle
    unfold boundMonth at hpos
    have hyear : year = Y := by omega
    have hmonth : x = d.month := by omega
    rw [hyear, hmonth]
    rw [hmonth] at hx
    exact hfit hx

/-- The walk over the years, from the first one on. -/
theorem scanYears_ends (hs : s.WellFormed) {l : List ℕ} (hl : (Y :: l).Pairwise (· < ·))
    (hy : ∀ y ∈ Y :: l, y ∈ s.years.ordinals)
    (hfit : d.month ∈ s.months.ordinals → d.day ≤ daysInMonth d.month Y) :
    Ends d (fun c => ∃ y ∈ Y :: l, Target s d Y c ∧ c.date.year = (y : ℕ)) False
      (scan (tryMonths s) (Y :: l) ⟨d, true, true, true, true, true⟩) := by
  refine scan_endsBy (A := fun q y => Enters d ⟨d, true, true, true, true, true⟩ y Y q) ?_ hl
    (fun y hy' q hq => tryMonths_ends hs (hy y hy') hq hfit) (fun y hy' => ?_) (fun y hy' => ?_)
    (by simp)
  · rintro y y' c c' hlt ⟨-, hc⟩ ⟨-, hc'⟩
    apply Digit.month.key_lt
    have h1 := c.date.month_le
    have h2 := c'.date.month_le
    simp only [Digit.month, Date.monthKey]
    omega
  · have heq : Y = y := by simpa using hy'
    exact Or.inl ⟨rfl, by rw [heq]⟩
  · have hlt := (List.pairwise_cons.mp hl).1 y hy'
    exact Or.inr ⟨rfl, by omega⟩

end Loops

/-! ## The whole search -/

/-- The least of some moments, or none if there are none. -/
def LeastOf (T : Civil → Prop) : Option DateTime → Prop
  | none => ∀ c, ¬ T c
  | some t => t.nanos = 0 ∧ T t.civil ∧ ∀ c, T c → t.civil.key ≤ c.key

/-- The first year of a schedule from that of an instant on. -/
def FirstYear (s : ScheduleFields) (d : DateTime) (Y : ℕ) : Prop :=
  Y ∈ s.years.ordinals ∧ asU32 d.year ≤ Y ∧ ∀ y ∈ s.years.ordinals, asU32 d.year ≤ y → Y ≤ y

theorem nextAfter_of_no_year {s : Schedule} {after : DateTime} (hd : after.addSecond = .ok d)
    (h : ∀ y ∈ s.fields.years.ordinals, y < asU32 d.year) : s.nextAfter after = .ok none := by
  have hnil : s.fields.years.ordinals.above (asU32 d.year) = [] := by
    rw [List.eq_nil_iff_forall_not_mem]
    intro y hy
    have hy' := SortedSet.mem_above.mp hy
    have := h y hy'.1
    omega
  simp [Schedule.nextAfter, NextAfterQuery.ofAfter, hd, NextAfterQuery.yearLowerBound, hnil, scan,
    bind, Except.bind, pure, Except.pure]

theorem FirstYear.above_eq {s : ScheduleFields} {Y : ℕ} (h : FirstYear s d Y) :
    ∃ l, s.years.ordinals.above (asU32 d.year) = Y :: l := by
  have hY : Y ∈ s.years.ordinals.above (asU32 d.year) := SortedSet.mem_above.mpr ⟨h.1, h.2.1⟩
  refine SortedSet.eq_cons_of_first (s.years.ordinals.above_sorted _) hY fun y hy => ?_
  obtain ⟨h1, h2⟩ := SortedSet.mem_above.mp hy
  exact not_lt.mpr (h.2.2 y h1 h2)

/-- Beginning in year `Y`, the search finds the least moment from its bound on. -/
theorem nextAfter_leastOf {s : Schedule} (hs : s.fields.WellFormed) {after : DateTime}
    (hd : after.addSecond = .ok d) {Y : ℕ} (hY : FirstYear s.fields d Y)
    (hfit : d.month ∈ s.fields.months.ordinals → d.day ≤ daysInMonth d.month Y) :
    ∃ r, s.nextAfter after = .ok r ∧ LeastOf (Target s.fields d Y) r := by
  obtain ⟨l, hl⟩ := hY.above_eq
  have hsorted := s.fields.years.ordinals.above_sorted (asU32 d.year)
  have hmem : ∀ y, y ∈ Y :: l ↔ y ∈ s.fields.years.ordinals ∧ asU32 d.year ≤ y := by
    intro y
    rw [← hl]
    exact SortedSet.mem_above
  rw [hl] at hsorted
  have hends : Ends d (Target s.fields d Y) False
      (scan (tryMonths s.fields) (Y :: l) ⟨d, true, true, true, true, true⟩) := by
    refine (scanYears_ends hs hsorted (fun y hy => ((hmem y).mp hy).1) hfit).congr fun c => ?_
    constructor
    · rintro ⟨y, -, hc, -⟩
      exact hc
    · intro hc
      obtain ⟨y, hy, hcy⟩ := hc.1.year
      have hle := hc.bounds.2.2.2.2.2
      have hfirst := hY.2.1
      exact ⟨y, (hmem y).mpr ⟨hy, by omega⟩, hc, hcy⟩
  obtain ⟨o, q, hscan, hset, -⟩ := hends
  cases o with
  | exhausted =>
    refine ⟨none, ?_, hset⟩
    simp only [Schedule.nextAfter, NextAfterQuery.ofAfter, hd, NextAfterQuery.yearLowerBound, hl,
      hscan, bind, Except.bind, pure, Except.pure]
  | nextDay => exact absurd hset id
  | found t =>
    refine ⟨some t, ?_, hset⟩
    simp only [Schedule.nextAfter, NextAfterQuery.ofAfter, hd, NextAfterQuery.yearLowerBound, hl,
      hscan, bind, Except.bind, pure, Except.pure]

/-- The initial day is handed out as a lower bound of the month even where it is past the
end of the month, and the range between the two is inverted. -/
theorem nextAfter_panics {s : Schedule} {after : DateTime} (hd : after.addSecond = .ok d) {Y : ℕ}
    (hY : FirstYear s.fields d Y) (hmonth : d.month ∈ s.fields.months.ordinals)
    (hday : daysInMonth d.month Y < d.day) : s.nextAfter after = .error .panic := by
  obtain ⟨l, hl⟩ := hY.above_eq
  have hd12 : d.month ≤ TimeUnit.months.inclusiveMax := d.civil.date.month_le
  obtain ⟨walk, hrange, hsorted, hmem⟩ := s.fields.months.ordinals.range_eq_some hd12
  have hin := (hmem d.month).mpr ⟨hmonth, le_rfl, hd12⟩
  obtain ⟨rest, rfl⟩ := SortedSet.eq_cons_of_first hsorted hin fun m hm =>
    not_lt.mpr ((hmem m).mp hm).2.1
  have hdays : tryDays s.fields Y d.month ⟨d, false, true, true, true, true⟩ = .error .panic := by
    have hinverted := SortedSet.range_eq_none (s := s.fields.daysOfMonth.ordinals) hday
    simp [tryDays, level, NextAfterQuery.dayOfMonthLowerBound, hinverted, ofOption, bind,
      Except.bind]
  have hmonths : tryMonths s.fields Y ⟨d, true, true, true, true, true⟩ = .error .panic := by
    simp [tryMonths, level, NextAfterQuery.monthLowerBound, hmonth, hrange, ofOption, bind,
      Except.bind, scan, onExhausted, hdays]
  simp [Schedule.nextAfter, NextAfterQuery.ofAfter, hd, NextAfterQuery.yearLowerBound, hl, scan,
    hmonths, bind, Except.bind, pure, Except.pure]

end Antegen.Cron
