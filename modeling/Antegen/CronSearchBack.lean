import Antegen.CronSearch

/-!
# Searching for the moment before

`Schedule::prev_before` walks the loops of `next_after` the other way. Upper bounds come
from the second before the given instant. The end of a month is applied to the bound of
the days after the bound has been looked up among the ordinals.
-/
namespace Antegen.Cron

open Calendar

/-- `before - Duration::seconds(1)`; it arrives at the second that a leap second extends. -/
def DateTime.subSecond (t : DateTime) : Result DateTime :=
  ofOption .panic
    (if 1000000000 ≤ t.nanos then fromTimestamp t.timestamp (t.nanos - 1000000000)
    else fromTimestamp (t.timestamp - 1) t.nanos)

/-- The query has the fields of `NextAfterQuery`, and its resets are the same. -/
abbrev PrevFromQuery := NextAfterQuery

namespace PrevFromQuery

def ofBefore (before : DateTime) : Result PrevFromQuery := do
  let initial ← before.subSecond
  pure ⟨initial, true, true, true, true, true⟩

def yearUpperBound (q : PrevFromQuery) : ℕ := asU32 q.initial.year

def monthUpperBound (q : PrevFromQuery) : ℕ × PrevFromQuery :=
  if q.firstMonth then (q.initial.month, { q with firstMonth := false })
  else (TimeUnit.months.inclusiveMax, q)

def dayOfMonthUpperBound (q : PrevFromQuery) : ℕ × PrevFromQuery :=
  if q.firstDayOfMonth then (q.initial.day, { q with firstDayOfMonth := false })
  else (TimeUnit.daysOfMonth.inclusiveMax, q)

def hourUpperBound (q : PrevFromQuery) : ℕ × PrevFromQuery :=
  if q.firstHour then (q.initial.hour, { q with firstHour := false })
  else (TimeUnit.hours.inclusiveMax, q)

def minuteUpperBound (q : PrevFromQuery) : ℕ × PrevFromQuery :=
  if q.firstMinute then (q.initial.minute, { q with firstMinute := false })
  else (TimeUnit.minutes.inclusiveMax, q)

def secondUpperBound (q : PrevFromQuery) : ℕ × PrevFromQuery :=
  if q.firstSecond then (q.initial.second, { q with firstSecond := false })
  else (TimeUnit.seconds.inclusiveMax, q)

end PrevFromQuery

/-- One of the nested loops: its upper bound is taken, the smaller bounds are dropped if
it is not among the ordinals, and the range from the minimum to the bound, cut off where
the days end, is walked backwards. -/
def levelBack (ordinals : OrdinalSet) (first : ℕ) (cutOff : ℕ → ℕ)
    (upperBound : PrevFromQuery → ℕ × PrevFromQuery) (reset : PrevFromQuery → PrevFromQuery)
    (body : ℕ → Search) : Search := fun q => do
  let (stop, q) := upperBound q
  let q := if stop ∈ ordinals then q else reset q
  let walk ← ofOption .panic (ordinals.range first (cutOff stop))
  scan body walk.reverse q

section Loops

open NextAfterQuery PrevFromQuery

variable (s : ScheduleFields)

def trySecondsBack (year month day hour minute : ℕ) : Search :=
  levelBack s.seconds.ordinals TimeUnit.seconds.inclusiveMin id secondUpperBound resetSecond
    (trySecond s year month day hour minute)

def tryMinutesBack (year month day hour : ℕ) : Search :=
  levelBack s.minutes.ordinals TimeUnit.minutes.inclusiveMin id minuteUpperBound resetMinute
    fun minute => onExhausted resetMinute (trySecondsBack s year month day hour minute)

def tryHoursBack (year month day : ℕ) : Search :=
  levelBack s.hours.ordinals TimeUnit.hours.inclusiveMin id hourUpperBound resetHour
    fun hour => onExhausted resetHour (tryMinutesBack s year month day hour)

def tryDaysBack (year month : ℕ) : Search :=
  levelBack s.daysOfMonth.ordinals TimeUnit.daysOfMonth.inclusiveMin (min (daysInMonth month year))
    dayOfMonthUpperBound resetDayOfMonth
    fun day => dayLoop (onExhausted resetDayOfMonth (tryHoursBack s year month day))

def tryMonthsBack (year : ℕ) : Search :=
  levelBack s.months.ordinals TimeUnit.months.inclusiveMin id monthUpperBound resetMonth
    fun month => onExhausted resetMonth (tryDaysBack s year month)

end Loops

def Schedule.prevBefore (s : Schedule) (before : DateTime) : Result (Option DateTime) := do
  let q ← PrevFromQuery.ofBefore before
  let (o, _) ← scan (tryMonthsBack s.fields)
    (s.fields.years.ordinals.below q.yearUpperBound).reverse q
  match o with
  | .found t => pure (some t)
  | _ => pure none

def ScheduleIterator.nextBack (it : ScheduleIterator) :
    Result (Option DateTime × ScheduleIterator) := do
  if it.isDone then pure (none, it)
  else
    let r ← it.schedule.prevBefore it.previous
    match r with
    | some t => pure (some t, { it with previous := t })
    | none => pure (none, { it with isDone := true })

end Antegen.Cron
