import Antegen.Calendar
import Antegen.CronParsing

/-!
# Searching for the next moment of a schedule

`Schedule::next_after` walks years, months, days, hours, minutes and seconds in nested
loops. Lower bounds come from the second after the given instant; each is handed out
once, and a reset of one unit also drops the bounds of the smaller ones. A weekday that
does not fit goes on with the next day and leaves the bounds alone.
-/
namespace Antegen.Cron

open Calendar

/-! ## Instants -/

/-- The first second of the year -262143 and the last one of the year 262142. -/
def minTimestamp : ℤ := -8334601228800

def maxTimestamp : ℤ := 8210266876799

/-- `DateTime<Utc>`. Nanoseconds above a billion mark a leap second. -/
structure DateTime where
  timestamp : ℤ
  nanos : ℕ
  min_le : minTimestamp ≤ timestamp
  le_max : timestamp ≤ maxTimestamp
  nanos_lt : nanos < 2000000000

/-- The cast of an `i32` to `u32`. -/
def asU32 (n : ℤ) : ℕ := (n % 2 ^ 32).toNat

namespace DateTime

def civil (t : DateTime) : Civil := Civil.ofTimestamp t.timestamp

def year (t : DateTime) : ℤ := t.civil.date.year

def month (t : DateTime) : ℕ := t.civil.date.month

def day (t : DateTime) : ℕ := t.civil.date.day

def hour (t : DateTime) : ℕ := t.civil.hour

def minute (t : DateTime) : ℕ := t.civil.minute

def second (t : DateTime) : ℕ := t.civil.second

/-- `weekday().number_from_sunday()`. -/
def weekday (t : DateTime) : ℕ := t.civil.date.weekday

/-- `DateTime::from_timestamp`. -/
def fromTimestamp (timestamp : ℤ) (nanos : ℕ) : Option DateTime :=
  if h : (minTimestamp ≤ timestamp ∧ timestamp ≤ maxTimestamp) ∧ nanos < 2000000000 then
    some ⟨timestamp, nanos, h.1.1, h.1.2, h.2⟩
  else none

/-- `after + Duration::seconds(1)`; it leaves a leap second. -/
def addSecond (t : DateTime) : Result DateTime :=
  ofOption .panic (fromTimestamp (t.timestamp + 1)
    (if 1000000000 ≤ t.nanos then t.nanos - 1000000000 else t.nanos))

/-- `with_ymd_and_hms`. -/
def withYmdAndHms (year : ℤ) (month day hour minute second : ℕ) : Option DateTime :=
  if h : ((1 ≤ month ∧ month ≤ 12) ∧ 1 ≤ day ∧ day ≤ Calendar.daysInMonth year month) ∧
      hour < 24 ∧ minute < 60 ∧ second < 60 then
    fromTimestamp (Civil.timestamp ⟨⟨year, month, day, h.1.1.1, h.1.1.2, h.1.2.1, h.1.2.2⟩,
      hour, minute, second, h.2.1, h.2.2.1, h.2.2.2⟩) 0
  else none

/-- The order of instants. -/
def Before (t t' : DateTime) : Prop :=
  t.timestamp < t'.timestamp ∨ (t.timestamp = t'.timestamp ∧ t.nanos < t'.nanos)

end DateTime

/-! ## Days of a month -/

def isLeapYear (year : ℕ) : Bool :=
  let byFour := year % 4 = 0
  let byHundred := year % 100 = 0
  let byFourHundred := year % 400 = 0
  byFour && (!byHundred || byFourHundred)

def daysInMonth (month year : ℕ) : ℕ :=
  match month with
  | 9 => 30
  | 4 => 30
  | 6 => 30
  | 11 => 30
  | 2 => if isLeapYear year then 29 else 28
  | _ => 31

/-! ## The query -/

structure NextAfterQuery where
  initial : DateTime
  firstMonth : Bool
  firstDayOfMonth : Bool
  firstHour : Bool
  firstMinute : Bool
  firstSecond : Bool

namespace NextAfterQuery

def ofAfter (after : DateTime) : Result NextAfterQuery := do
  let initial ← after.addSecond
  pure ⟨initial, true, true, true, true, true⟩

def yearLowerBound (q : NextAfterQuery) : ℕ := asU32 q.initial.year

def monthLowerBound (q : NextAfterQuery) : ℕ × NextAfterQuery :=
  if q.firstMonth then (q.initial.month, { q with firstMonth := false })
  else (TimeUnit.months.inclusiveMin, q)

def dayOfMonthLowerBound (q : NextAfterQuery) : ℕ × NextAfterQuery :=
  if q.firstDayOfMonth then (q.initial.day, { q with firstDayOfMonth := false })
  else (TimeUnit.daysOfMonth.inclusiveMin, q)

def hourLowerBound (q : NextAfterQuery) : ℕ × NextAfterQuery :=
  if q.firstHour then (q.initial.hour, { q with firstHour := false })
  else (TimeUnit.hours.inclusiveMin, q)

def minuteLowerBound (q : NextAfterQuery) : ℕ × NextAfterQuery :=
  if q.firstMinute then (q.initial.minute, { q with firstMinute := false })
  else (TimeUnit.minutes.inclusiveMin, q)

def secondLowerBound (q : NextAfterQuery) : ℕ × NextAfterQuery :=
  if q.firstSecond then (q.initial.second, { q with firstSecond := false })
  else (TimeUnit.seconds.inclusiveMin, q)

def resetSecond (q : NextAfterQuery) : NextAfterQuery := { q with firstSecond := false }

def resetMinute (q : NextAfterQuery) : NextAfterQuery :=
  { q with firstMinute := false }.resetSecond

def resetHour (q : NextAfterQuery) : NextAfterQuery := { q with firstHour := false }.resetMinute

def resetDayOfMonth (q : NextAfterQuery) : NextAfterQuery :=
  { q with firstDayOfMonth := false }.resetHour

def resetMonth (q : NextAfterQuery) : NextAfterQuery :=
  { q with firstMonth := false }.resetDayOfMonth

end NextAfterQuery

/-! ## The loops -/

/-- How a loop ends: nothing found, on to the next day, or a moment to return. -/
inductive Outcome
  | exhausted
  | nextDay
  | found (t : DateTime)

abbrev Search := NextAfterQuery → Result (Outcome × NextAfterQuery)

/-- A loop over ordinals, left early by a jump or a return. -/
def scan (body : ℕ → Search) : List ℕ → Search
  | [], q => .ok (.exhausted, q)
  | n :: l, q => do
    let (o, q) ← body n q
    match o with
    | .exhausted => scan body l q
    | o => pure (o, q)

/-- One of the nested loops: its lower bound is taken, the smaller bounds are dropped if
it is not among the ordinals, and the range up to the maximum is walked. -/
def level (ordinals : OrdinalSet) (last : ℕ) (lowerBound : NextAfterQuery → ℕ × NextAfterQuery)
    (reset : NextAfterQuery → NextAfterQuery) (body : ℕ → Search) : Search := fun q => do
  let (start, q) := lowerBound q
  let q := if start ∈ ordinals then q else reset q
  let walk ← ofOption .panic (ordinals.range start last)
  scan body walk q

/-- What follows an inner loop that found nothing. -/
def onExhausted (reset : NextAfterQuery → NextAfterQuery) (inner : Search) : Search := fun q => do
  let (o, q) ← inner q
  match o with
  | .exhausted => pure (.exhausted, reset q)
  | o => pure (o, q)

/-- `continue 'day_loop` arrives at the loop over days. -/
def dayLoop (inner : Search) : Search := fun q => do
  let (o, q) ← inner q
  match o with
  | .nextDay => pure (.exhausted, q)
  | o => pure (o, q)

section Loops

open NextAfterQuery

variable (s : ScheduleFields)

def trySecond (year month day hour minute second : ℕ) : Search := fun q => do
  let candidate ← ofOption .panic (DateTime.withYmdAndHms year month day hour minute second)
  if candidate.weekday ∈ s.daysOfWeek.ordinals then pure (.found candidate, q)
  else pure (.nextDay, q)

def trySeconds (year month day hour minute : ℕ) : Search :=
  level s.seconds.ordinals TimeUnit.seconds.inclusiveMax secondLowerBound resetSecond
    (trySecond s year month day hour minute)

def tryMinutes (year month day hour : ℕ) : Search :=
  level s.minutes.ordinals TimeUnit.minutes.inclusiveMax minuteLowerBound resetMinute
    fun minute => onExhausted resetMinute (trySeconds s year month day hour minute)

def tryHours (year month day : ℕ) : Search :=
  level s.hours.ordinals TimeUnit.hours.inclusiveMax hourLowerBound resetHour
    fun hour => onExhausted resetHour (tryMinutes s year month day hour)

def tryDays (year month : ℕ) : Search :=
  level s.daysOfMonth.ordinals (daysInMonth month year) dayOfMonthLowerBound resetDayOfMonth
    fun day => dayLoop (onExhausted resetDayOfMonth (tryHours s year month day))

def tryMonths (year : ℕ) : Search :=
  level s.months.ordinals TimeUnit.months.inclusiveMax monthLowerBound resetMonth
    fun month => onExhausted resetMonth (tryDays s year month)

end Loops

namespace Schedule

def nextAfter (s : Schedule) (after : DateTime) : Result (Option DateTime) := do
  let q ← NextAfterQuery.ofAfter after
  let (o, _) ← scan (tryMonths s.fields) (s.fields.years.ordinals.above q.yearLowerBound) q
  match o with
  | .found t => pure (some t)
  | _ => pure none

def includes (s : Schedule) (t : DateTime) : Bool :=
  s.fields.years.includes (asU32 t.year) && s.fields.months.includes t.month &&
    s.fields.daysOfWeek.includes t.weekday && s.fields.daysOfMonth.includes t.day &&
    s.fields.hours.includes t.hour && s.fields.minutes.includes t.minute &&
    s.fields.seconds.includes t.second

end Schedule

structure ScheduleIterator where
  isDone : Bool
  schedule : Schedule
  previous : DateTime

def Schedule.after (s : Schedule) (after : DateTime) : ScheduleIterator := ⟨false, s, after⟩

def ScheduleIterator.next (it : ScheduleIterator) :
    Result (Option DateTime × ScheduleIterator) := do
  if it.isDone then pure (none, it)
  else
    let r ← it.schedule.nextAfter it.previous
    match r with
    | some t => pure (some t, { it with previous := t })
    | none => pure (none, { it with isDone := true })

/-- `next_timestamp` of the thread program. -/
def nextTimestamp (after : ℤ) (schedule : String) : Result (Option ℤ) := do
  let s ← ofOption .panic (Schedule.fromStr schedule).toOption
  let t ← ofOption .panic (DateTime.fromTimestamp after 0)
  let r ← s.nextAfter t
  pure (r.map DateTime.timestamp)

end Antegen.Cron
