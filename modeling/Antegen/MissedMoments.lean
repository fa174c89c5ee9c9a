import Antegen.Scheduling
import Antegen.Readiness
import Antegen.CronExact

/-!
# Missed moments

An interval or cron trigger has a sequence of triggering moments, and a thread waits for
one of them at a time. The schedule is computed from the clock at which a firing
completes and `skippable` is not read. So the thread goes on with the moment that
follows the executed one exactly if the firing was on time, and a run whose firings are
all on time executes every moment once.
-/
namespace Antegen

/-! ## Sequences of moments -/

namespace Moments

open Relation

variable {α : Type*} [LinearOrder α] {follows : α → α → Prop} {first next next' : α}
  {executed : List α}

/-- The moments from `first` on, up to the pending `next`, were executed in their order. -/
structure Covered (follows : α → α → Prop) (first : α) (executed : List α) (next : α) : Prop where
  sorted : executed.Pairwise (· < ·)
  mem_iff : ∀ m, m ∈ executed ↔ ReflTransGen follows first m ∧ m < next
  pending : ReflTransGen follows first next

theorem le_of_reflTransGen (hlt : ∀ m m', follows m m' → m < m') {m m' : α}
    (h : ReflTransGen follows m m') : m ≤ m' := by
  induction h with
  | refl => exact le_rfl
  | tail _ hstep ih => exact ih.trans (hlt _ _ hstep).le

theorem Covered.start (hlt : ∀ m m', follows m m' → m < m') (first : α) :
    Covered follows first [] first := by
  refine ⟨List.Pairwise.nil, fun m => ?_, .refl⟩
  constructor
  · intro hm
    exact absurd hm (by simp)
  · rintro ⟨hreach, hm⟩
    exact absurd hm (not_lt.mpr (le_of_reflTransGen hlt hreach))

/-- The pending moment is executed and the one that follows it is next. -/
theorem Covered.advance (hlt : ∀ m m', follows m m' → m < m') (huniq : Relator.RightUnique follows)
    (h : Covered follows first executed next) (hnext : follows next next') :
    Covered follows first (executed ++ [next]) next' := by
  refine ⟨?_, fun m => ?_, h.pending.tail hnext⟩
  · refine List.pairwise_append.mpr ⟨h.sorted, List.pairwise_singleton _ _, fun m hm m' hm' => ?_⟩
    rw [List.mem_singleton.mp hm']
    exact ((h.mem_iff m).mp hm).2
  · rw [List.mem_append, List.mem_singleton, h.mem_iff]
    constructor
    · rintro (⟨hreach, hm⟩ | rfl)
      · exact ⟨hreach, hm.trans (hlt _ _ hnext)⟩
      · exact ⟨h.pending, hlt _ _ hnext⟩
    · rintro ⟨hreach, hm⟩
      rcases lt_trichotomy m next with hbefore | heq | hafter
      · exact Or.inl ⟨hreach, hbefore⟩
      · exact Or.inr heq
      · exfalso
        rcases ReflTransGen.total_of_right_unique huniq h.pending hreach with hto | hfrom
        · rcases hto.cases_head with heq | ⟨m', hstep, hrest⟩
          · exact hafter.ne heq
          · rw [huniq hstep hnext] at hrest
            exact hm.not_ge (le_of_reflTransGen hlt hrest)
        · exact hafter.not_ge (le_of_reflTransGen hlt hfrom)

/-- Every moment before the pending one was executed exactly once. -/
theorem Covered.count_eq_one (h : Covered follows first executed next) {m : α}
    (hreach : ReflTransGen follows first m) (hm : m < next) : executed.count m = 1 := by
  have hnodup : executed.Nodup := h.sorted.imp fun hlt => hlt.ne
  exact List.count_eq_one_of_mem hnodup ((h.mem_iff m).mpr ⟨hreach, hm⟩)

end Moments

/-! ## Moments of a cron schedule -/

namespace Cron

/-- The schedule includes the second. -/
def Schedule.At (s : Schedule) (m : ℤ) : Prop :=
  ∃ t : DateTime, t.nanos = 0 ∧ t.timestamp = m ∧ s.includes t = true

/-- `next` is the least occurrence after `m`. -/
def Follows (expression : String) (m next : ℤ) : Prop :=
  ∃ s, Schedule.fromStr expression = .ok s ∧ IsLeast {m' | m < m' ∧ s.At m'} next

/-- Nothing occurs after the moment up to now. -/
def NothingMissed (expression : String) (m now : ℤ) : Prop :=
  ∀ s, Schedule.fromStr expression = .ok s → ∀ m', m < m' → m' ≤ now → ¬ s.At m'

/-- The search from now meets no gap in the years, or a harmless one. -/
def ExactFrom (expression : String) (now : ℤ) : Prop :=
  ∀ s after d, Schedule.fromStr expression = .ok s → DateTime.fromTimestamp now 0 = some after →
    after.addSecond = .ok d → SearchIsExact s d

theorem Follows.lt {expression : String} {m next : ℤ} (h : Follows expression m next) :
    m < next := by
  obtain ⟨s, -, hleast⟩ := h
  exact hleast.1.1

theorem Follows.unique {expression : String} : Relator.RightUnique (Follows expression) := by
  rintro m next next' ⟨s, hs, hleast⟩ ⟨s', hs', hleast'⟩
  rw [hs] at hs'
  obtain rfl := Except.ok.inj hs'
  exact hleast.unique hleast'

theorem fromTimestamp_eq_some {m : ℤ} {t : DateTime} (h : DateTime.fromTimestamp m 0 = some t) :
    t.timestamp = m ∧ t.nanos = 0 := by
  unfold DateTime.fromTimestamp at h
  split_ifs at h
  rw [← Option.some.inj h]
  exact ⟨rfl, rfl⟩

theorem before_iff_timestamp {t t' : DateTime} (ht : t.nanos = 0) (ht' : t'.nanos = 0) :
    t.Before t' ↔ t.timestamp < t'.timestamp := by
  rw [DateTime.Before, ht, ht']
  omega

theorem isFirst_iff_isLeast {s : Schedule} {after r : DateTime} (hafter : after.nanos = 0)
    (hr : r.nanos = 0) :
    Schedule.IsFirst (s.Occurs after) (some r) ↔
      IsLeast {m | after.timestamp < m ∧ s.At m} r.timestamp := by
  constructor
  · rintro ⟨⟨-, hbefore, hinc⟩, hleast⟩
    refine ⟨⟨(before_iff_timestamp hafter hr).mp hbefore, r, hr, rfl, hinc⟩, ?_⟩
    rintro m ⟨hm, t, ht, rfl, hinc'⟩
    rcases hleast t ⟨ht, (before_iff_timestamp hafter ht).mpr hm, hinc'⟩ with rfl | hlt
    · exact le_rfl
    · exact ((before_iff_timestamp hr ht).mp hlt).le
  · rintro ⟨⟨hlt, t, ht, htr, hinc⟩, hleast⟩
    have hsame : t = r := by
      cases t
      cases r
      simp_all
    subst hsame
    refine ⟨⟨hr, (before_iff_timestamp hafter hr).mpr hlt, hinc⟩, ?_⟩
    rintro t' ⟨ht', hbefore, hinc'⟩
    have hle := hleast ⟨(before_iff_timestamp hafter ht').mp hbefore, t', ht', rfl, hinc'⟩
    rcases hle.lt_or_eq with hlt' | heq
    · exact Or.inr ((before_iff_timestamp hr ht').mpr hlt')
    · left
      cases t'
      cases t
      simp_all

/-- A moment that is found is an instant. -/
theorem nextTimestamp_mem {expression : String} {now next : ℤ}
    (h : nextTimestamp now expression = .ok (some next)) : -2 ^ 63 ≤ next ∧ next < 2 ^ 63 := by
  simp only [nextTimestamp, bind_eq_ok, pure_eq_ok] at h
  obtain ⟨s, -, after, -, r, -, hnext⟩ := h
  obtain ⟨t, -, rfl⟩ := Option.map_eq_some_iff.mp hnext
  have hmin := t.min_le
  have hmax := t.le_max
  unfold minTimestamp at hmin
  unfold maxTimestamp at hmax
  omega

/-- The moment found from a late clock follows the executed one if and only if none was
missed and the search is exact. -/
theorem nextTimestamp_follows_iff {expression : String} {m now next : ℤ} (hle : m ≤ now)
    (h : nextTimestamp now expression = .ok (some next)) :
    Follows expression m next ↔ NothingMissed expression m now ∧ ExactFrom expression now := by
  simp only [nextTimestamp, bind_eq_ok, pure_eq_ok, ofOption_eq_ok] at h
  obtain ⟨s, hs, after, hafter, r, hr, hnext⟩ := h
  obtain ⟨t, rfl, rfl⟩ := Option.map_eq_some_iff.mp hnext
  have hparse : Schedule.fromStr expression = .ok s := toOption_eq_some.mp hs
  have hwf := fromStr_wellFormed hparse
  obtain ⟨rfl, hnanos⟩ := fromTimestamp_eq_some hafter
  obtain ⟨d, hd⟩ := exists_addSecond hr
  have hocc := found_occurs hwf hd hr
  have hlater := (before_iff_timestamp hnanos hocc.1).mp hocc.2.1
  have hat : s.At t.timestamp := ⟨t, hocc.1, rfl, hocc.2.2⟩
  have hexact : ExactFrom expression after.timestamp ↔
      IsLeast {m' | after.timestamp < m' ∧ s.At m'} t.timestamp := by
    rw [← isFirst_iff_isLeast hnanos hocc.1, found_isFirst_iff hwf hd hr]
    constructor
    · intro hall
      exact hall s after d hparse hafter hd
    · intro hsearch s' after' d' hs' hafter' hd'
      rw [hparse] at hs'
      obtain rfl := Except.ok.inj hs'
      rw [hafter] at hafter'
      obtain rfl := Option.some.inj hafter'
      rw [hd] at hd'
      rw [← Except.ok.inj hd']
      exact hsearch
  rw [hexact]
  constructor
  · rintro ⟨s', hs', ⟨-, -⟩, hleast⟩
    rw [hparse] at hs'
    obtain rfl := Except.ok.inj hs'
    refine ⟨fun s' hs' m' hm' hnow hat' => ?_, ⟨hlater, hat⟩, fun m' hm' => ?_⟩
    · rw [hparse] at hs'
      obtain rfl := Except.ok.inj hs'
      have hmin := hleast ⟨hm', hat'⟩
      omega
    · exact hleast ⟨hle.trans_lt hm'.1, hm'.2⟩
  · rintro ⟨hmissed, -, hleast⟩
    refine ⟨s, hparse, ⟨hle.trans_lt hlater, hat⟩, fun m' hm' => ?_⟩
    by_cases hnow : m' ≤ after.timestamp
    · exact absurd hm'.2 (hmissed s hparse m' hm'.1 hnow)
    · exact hleast ⟨not_le.mp hnow, hm'.2⟩

end Cron

/-! ## Triggers and their moments -/

/-- Interval and cron triggers without jitter whose moments may not be skipped. -/
def Trigger.Unskippable : Trigger → Prop
  | .interval _ skippable jitter => skippable = false ∧ jitter = 0
  | .cron _ skippable jitter => skippable = false ∧ jitter = 0
  | _ => False

/-- `next` is the triggering moment that follows `m`. -/
def Trigger.Follows : Trigger → ℤ → ℤ → Prop
  | .interval seconds _ _, m, next => next = m + seconds
  | .cron schedule _ _, m, next => Cron.Follows schedule m next
  | _, _, _ => False

/-- The moments go forward. A cron schedule has no others. -/
def Trigger.Advances : Trigger → Prop
  | .interval seconds _ _ => 0 < seconds
  | .cron _ _ _ => True
  | _ => False

/-- When a firing for the moment `m` that completes `now` is followed by the right moment.
An interval has no slack, unless its next moment is the last one that there is. A cron
schedule has slack until its next moment. -/
def Trigger.OnTime : Trigger → ℤ → ℤ → Prop
  | .interval seconds _ _, m, now =>
    (now = m ∧ -2 ^ 63 ≤ m + seconds ∧ m + seconds < 2 ^ 63) ∨ m + seconds = 2 ^ 63 - 1
  | .cron schedule _ _, m, now => Cron.NothingMissed schedule m now ∧ Cron.ExactFrom schedule now
  | _, _, _ => False

theorem Trigger.Follows.lt {trigger : Trigger} (hadvances : trigger.Advances) {m next : ℤ}
    (h : trigger.Follows m next) : m < next := by
  cases trigger with
  | interval seconds skippable jitter =>
    unfold Trigger.Advances at hadvances
    unfold Trigger.Follows at h
    omega
  | cron schedule skippable jitter => exact Cron.Follows.lt h
  | _ => exact h.elim

theorem Trigger.follows_unique (trigger : Trigger) : Relator.RightUnique trigger.Follows := by
  intro m next next' h h'
  cases trigger with
  | interval seconds skippable jitter =>
    unfold Trigger.Follows at h h'
    rw [h, h']
  | cron schedule skippable jitter => exact Cron.Follows.unique h h'
  | _ => exact h.elim

theorem saturate_of_mem {z : ℤ} (h : -2 ^ 63 ≤ z ∧ z < 2 ^ 63) : saturate z = z := by
  unfold saturate
  omega

/-- The schedule computed at a clock goes on with the following moment if and only if the
firing was on time. -/
theorem nextSchedule_follows_iff {h : Host} (hcron : h.nextTimestamp = Cron.nextTimestamp)
    {trigger : Trigger} (hskip : trigger.Unskippable) {clock : Clock}
    {remaining : List AccountInfo} {thread : Pubkey} {schedule : Schedule}
    (hs : nextSchedule h trigger clock remaining thread = .ok schedule) {m : ℤ}
    (hle : m ≤ clock.unixTimestamp) :
    (∃ prev next, schedule = .timed prev next ∧ trigger.Follows m next) ↔
      trigger.OnTime m clock.unixTimestamp := by
  cases trigger with
  | interval seconds skippable jitter =>
    obtain ⟨rfl, rfl⟩ := hskip
    obtain rfl := Except.ok.inj hs
    simp only [Schedule.timed.injEq, Trigger.Follows, Trigger.OnTime, calculateJitterOffset,
      if_true, add_zero]
    constructor
    · rintro ⟨prev, next, ⟨-, rfl⟩, hnext⟩
      unfold saturate at hnext
      omega
    · intro htime
      refine ⟨_, _, ⟨rfl, rfl⟩, ?_⟩
      unfold saturate
      omega
  | cron expression skippable jitter =>
    obtain ⟨rfl, rfl⟩ := hskip
    simp only [nextSchedule, hcron, bind_eq_ok, pure_eq_ok, ofOption_eq_ok, calculateJitterOffset,
      if_true, add_zero] at hs
    obtain ⟨found, hfound, next, rfl, rfl⟩ := hs
    rw [saturate_of_mem (Cron.nextTimestamp_mem hfound)]
    simp only [Schedule.timed.injEq, Trigger.Follows, Trigger.OnTime,
      ← Cron.nextTimestamp_follows_iff hle hfound]
    constructor
    · rintro ⟨prev, next', ⟨-, rfl⟩, hnext⟩
      exact hnext
    · intro hnext
      exact ⟨_, _, ⟨rfl, rfl⟩, hnext⟩
  | _ => exact hskip.elim

namespace ThreadProgram

open Transition

/-- The programs together with the cron search that they call. -/
def Env.linked (e : Env) : Env := { e with nextTimestamp := Cron.nextTimestamp }

/-- The step lemma: a completed firing leaves the moment that follows exactly if it was on
time. -/
theorem completed_follows_iff {e : Env} {cpi : Cpi} {a : ExecArgs} {w w' : Ledger} {s : Signal}
    (x : Execution e.linked cpi a w w' s) (hs : s ≠ .chain) {trigger : Trigger}
    (htrigger : s.newTrigger.getD x.thread.trigger = trigger) (hskip : trigger.Unskippable) {m : ℤ}
    (hle : m ≤ a.clock.unixTimestamp) :
    (∃ prev next, x.finished.schedule = .timed prev next ∧ trigger.Follows m next) ↔
      trigger.OnTime m a.clock.unixTimestamp := by
  have hschedule := x.finished_schedule
  simp only [hs, false_and, false_or, ne_eq, not_false_eq_true, true_and] at hschedule
  rw [x.finished_trigger, htrigger] at hschedule
  exact nextSchedule_follows_iff rfl hskip hschedule hle

/-- The moment that a completed firing was for. -/
def Event.executed : Event → List ℤ
  | .exec _ _ before (.fiber s) =>
    if s = .chain then []
    else match before.schedule with
      | .timed _ next => [next]
      | _ => []
  | _ => []

/-- The event leaves trigger and schedule alone, or it completes a firing on time. -/
def Punctual (trigger : Trigger) : Event → Prop
  | .instruction (.threadCreate _) => False
  | .instruction (.threadUpdate a) => a.trigger = none
  | .instruction _ => True
  | .exec _ a before (.fiber s) => s = .chain ∨ (s.newTrigger.getD trigger = trigger ∧
      ∀ prev next, before.schedule = .timed prev next →
        next ≤ a.clock.unixTimestamp ∧ trigger.OnTime next a.clock.unixTimestamp)
  | .exec _ _ _ .closePath => True
  | .other => True

/-- The thread waits for the moment behind those that were executed. -/
def OnSchedule (trigger : Trigger) (first : ℤ) (executed : List ℤ) (t : Thread) : Prop :=
  t.trigger = trigger ∧ ∃ prev next, t.schedule = .timed prev next ∧
    Moments.Covered trigger.Follows first executed next

theorem onSchedule_effect {e : Env} {trigger : Trigger} {ix : Ix} {before : Option Thread}
    {after : Thread} (h : Effect e before after ix) (hp : Punctual trigger (.instruction ix)) :
    ∃ t ∈ before, after.trigger = t.trigger ∧ after.schedule = t.schedule := by
  cases ix with
  | threadCreate a => exact hp.elim
  | threadUpdate a =>
    obtain ⟨t, ht, hu⟩ := h
    have hnone : a.trigger = none := hp
    simp only [updatedThread, hnone] at hu
    rw [← Except.ok.inj hu]
    exact ⟨t, ht, rfl, rfl⟩
  | fiberCreate a =>
    obtain ⟨t, ht, rfl⟩ := h
    exact ⟨t, ht, rfl, rfl⟩
  | fiberUpdate a =>
    obtain ⟨t, ht, rfl⟩ := h
    refine ⟨t, ht, ?_⟩
    unfold Thread.trackUpdated
    split_ifs <;> exact ⟨rfl, rfl⟩
  | fiberClose a =>
    obtain ⟨t, ht, -, rfl⟩ := h
    refine ⟨t, ht, ?_⟩
    unfold Thread.untrackClosed Thread.advanceToNextFiber
    simp only
    split_ifs <;> exact ⟨rfl, rfl⟩
  | fiberSwap a =>
    obtain ⟨t, ht, -, rfl⟩ := h
    refine ⟨t, ht, ?_⟩
    unfold Thread.untrackSwapped
    simp only
    split_ifs <;> exact ⟨rfl, rfl⟩

/-- The step lemma for executions. -/
theorem onSchedule_finished {e : Env} {cpi : Cpi} {a : ExecArgs} {w w' : Ledger} {s : Signal}
    (x : Execution e.linked cpi a w w' s) {trigger : Trigger} (hskip : trigger.Unskippable)
    (hadvances : trigger.Advances) (hp : Punctual trigger (.exec cpi a x.thread (.fiber s)))
    {first : ℤ} {executed : List ℤ} (h : OnSchedule trigger first executed x.thread) :
    OnSchedule trigger first
      (executed ++ (Event.exec cpi a x.thread (.fiber s)).executed) x.finished := by
  obtain ⟨htrigger, prev, next, hschedule, hcovered⟩ := h
  simp only [Event.executed]
  by_cases hchain : s = .chain
  · rw [if_pos hchain, List.append_nil]
    have hkept := x.finished_schedule
    simp only [hchain, true_and, ne_eq, not_true_eq_false, false_and, or_false] at hkept
    have hnone : s.newTrigger = none := by
      rw [hchain]
      rfl
    refine ⟨?_, prev, next, hkept.trans hschedule, hcovered⟩
    rw [x.finished_trigger, hnone]
    exact htrigger
  · simp only [if_neg hchain, hschedule]
    obtain ⟨hsame, htime⟩ := hp.resolve_left hchain
    obtain ⟨hle, hontime⟩ := htime prev next hschedule
    rw [← htrigger] at hsame
    have hgetD : s.newTrigger.getD x.thread.trigger = trigger := hsame.trans htrigger
    obtain ⟨prev', next', hnew, hfollows⟩ :=
      (completed_follows_iff x hchain hgetD hskip hle).mpr hontime
    refine ⟨?_, prev', next', hnew, ?_⟩
    · rw [x.finished_trigger, hgetD]
    · exact hcovered.advance (fun m m' => Trigger.Follows.lt hadvances) trigger.follows_unique
        hfollows

/-- The run lemma. -/
theorem onSchedule_run {e : Env} {thread : Pubkey} {trigger : Trigger}
    (hskip : trigger.Unskippable) (hadvances : trigger.Advances) {w₀ w : Ledger}
    {events : List Event} {first : ℤ}
    (h : Run (Guarded (Step e.linked thread) fun _ => Punctual trigger) w₀ events w)
    (h₀ : Holds thread (OnSchedule trigger first []) w₀) :
    Holds thread (OnSchedule trigger first (events.flatMap Event.executed)) w := by
  have hrun := h.history (I := fun executed => Holds thread (OnSchedule trigger first executed))
    (f := Event.executed) ?_ h₀
  · simpa using hrun
  intro executed u ev u' hu ⟨hp, hstep⟩ t' ht'
  rcases step_cases hstep ht' with ⟨ix, rfl, heffect⟩ | ⟨cpi, a, s, x, rfl, hx, -, rfl⟩ |
    ⟨cpi, a, rfl, hsame, -⟩ | ⟨rfl, hsame⟩
  · obtain ⟨t, ht, htrigger, hschedule⟩ := onSchedule_effect heffect hp
    obtain ⟨htrigger', hpending⟩ := hu t ht
    simp only [Event.executed, List.append_nil]
    refine ⟨htrigger.trans htrigger', ?_⟩
    rw [hschedule]
    exact hpending
  · exact onSchedule_finished x hskip hadvances hp (hu _ hx)
  · simpa [Event.executed] using hu t' hsame
  · simpa [Event.executed] using hu t' hsame

/-- A pending moment that was reached may be executed, however late it is. -/
theorem validateTrigger_of_reached {h : Host} {t : Thread} (hskip : t.trigger.Unskippable)
    {prev next : ℤ} (hs : t.schedule = .timed prev next) {clock : Clock}
    (hle : next ≤ clock.unixTimestamp) (remaining : List AccountInfo) (thread : Pubkey) :
    ∃ n, validateTrigger h t clock remaining thread = .ok n := by
  have hsuits : t.trigger.Suits t.schedule := by
    rw [hs]
    revert hskip
    cases t.trigger <;> simp [Trigger.Unskippable, Trigger.Suits]
  have hclock : t.trigger.onClock = true := by
    revert hskip
    cases t.trigger <;> simp [Trigger.Unskippable, Trigger.onClock]
  rw [validateTrigger_ok_iff hsuits hclock, hs]
  revert hskip
  cases t.trigger <;> simp [Trigger.Unskippable, hle]

/-- A firing for `first` leaves the moment that follows it exactly if it completes on time.
In a run whose firings are all on time every moment before the pending one was executed
exactly once, and nothing else; the pending one may be executed from its time on. -/
theorem moments_executed_once {e : Env} {thread : Pubkey} {w₀ : Ledger} {t₀ : Thread}
    (ht₀ : w₀.threadAt thread = some t₀) {prev₀ first : ℤ} (hs : t₀.schedule = .timed prev₀ first) :
    (∀ cpi a w' s t' trigger, a.thread = thread →
      threadExec e.linked cpi a w₀ = .ok (w', .fiber s) → s ≠ .chain →
      w'.threadAt thread = some t' → t'.trigger = trigger → trigger.Unskippable →
      first ≤ a.clock.unixTimestamp →
      ((∃ prev next, t'.schedule = .timed prev next ∧ trigger.Follows first next) ↔
        trigger.OnTime first a.clock.unixTimestamp)) ∧
    (t₀.trigger.Unskippable → t₀.trigger.Advances → ∀ events w t,
      Run (Guarded (Step e.linked thread) fun _ => Punctual t₀.trigger) w₀ events w →
      w.threadAt thread = some t →
      ∃ prev next, t.trigger = t₀.trigger ∧ t.schedule = .timed prev next ∧
        (∀ m ∈ events.flatMap Event.executed,
          Relation.ReflTransGen t₀.trigger.Follows first m ∧ m < next) ∧
        (∀ m, Relation.ReflTransGen t₀.trigger.Follows first m → m < next →
          (events.flatMap Event.executed).count m = 1) ∧
        Relation.ReflTransGen t₀.trigger.Follows first next ∧
        ∀ (clock : Clock) remaining, next ≤ clock.unixTimestamp →
          ∃ n, validateTrigger e.linked.toHost t clock remaining thread = .ok n) := by
  constructor
  · intro cpi a w' s t' trigger ha hexec hchain ht' htrigger hskip hle
    subst ha
    obtain ⟨x⟩ := threadExec_fiber hexec
    obtain rfl := x.eq_finished ht'
    rw [x.finished_trigger] at htrigger
    exact completed_follows_iff x hchain htrigger hskip hle
  · intro hskip hadvances events w t hrun ht
    have h₀ : Holds thread (OnSchedule t₀.trigger first []) w₀ := by
      intro t' ht'
      rw [ht₀] at ht'
      obtain rfl := Option.some.inj ht'
      exact ⟨rfl, prev₀, first, hs,
        Moments.Covered.start (fun m m' => Trigger.Follows.lt hadvances) first⟩
    obtain ⟨htrigger, prev, next, hschedule, hcovered⟩ :=
      onSchedule_run hskip hadvances hrun h₀ t ht
    refine ⟨prev, next, htrigger, hschedule, fun m hm => (hcovered.mem_iff m).mp hm,
      fun m hreach hm => hcovered.count_eq_one hreach hm, hcovered.pending, ?_⟩
    intro clock remaining hle
    exact validateTrigger_of_reached (htrigger ▸ hskip) hschedule hle remaining thread

/-- Executor 9 executes fiber 0 of thread 1 at a timestamp. -/
def argsAt (now : ℤ) : ExecArgs := { sampleArgs 0 with clock := ⟨100, 1, now⟩ }

/-- A thread created at timestamp 50 fires once; what it found and what it left. -/
def fireAt (trigger : Trigger) (now : ℤ) : Result (Ledger × Ledger × Outcome) := do
  let w ← threadCreate sampleEnv.linked (sampleCreate trigger) payerLedger
  let (w', o) ← threadExec sampleEnv.linked (memoCpi .none) (argsAt now) w
  pure (w, w', o)

/-- A reachable thread waits for the moment 60, and its firing `now` leaves it waiting for
`next`. -/
def FiresAt (trigger : Trigger) (now next : ℤ) : Prop :=
  ∃ w w' t t', Reachable sampleEnv.linked 1 w ∧ w.threadAt 1 = some t ∧
    t.trigger = trigger ∧ t.schedule = .timed 50 60 ∧
    threadExec sampleEnv.linked (memoCpi .none) (argsAt now) w = .ok (w', .fiber .none) ∧
    w'.threadAt 1 = some t' ∧ t'.trigger = trigger ∧ t'.schedule = .timed now next

theorem fireAt_stored (trigger : Trigger) (now next : ℤ)
    (h : (fireAt trigger now).map (fun r => ((r.1.threadAt 1).map fun t => (t.trigger, t.schedule),
      (r.2.1.threadAt 1).map fun t => (t.trigger, t.schedule), r.2.2)) =
        .ok (some (trigger, .timed 50 60), some (trigger, .timed now next), .fiber .none)) :
    FiresAt trigger now next := by
  obtain ⟨⟨w, w', o⟩, hfire, hstored⟩ := map_eq_ok.mp h
  simp only [Prod.mk.injEq] at hstored
  obtain ⟨hfound, hleft, rfl⟩ := hstored
  simp only [fireAt, bind_eq_ok, pure_eq_ok, Prod.exists, Prod.mk.injEq] at hfire
  obtain ⟨u, hcreate, u', o', hexec, rfl, rfl, rfl⟩ := hfire
  obtain ⟨t, ht, hfields⟩ := Option.map_eq_some_iff.mp hfound
  obtain ⟨t', ht', hfields'⟩ := Option.map_eq_some_iff.mp hleft
  obtain ⟨htrigger, hschedule⟩ := Prod.mk.inj hfields
  obtain ⟨htrigger', hschedule'⟩ := Prod.mk.inj hfields'
  exact ⟨u, u', t, t', threadCreate_reachable rfl hcreate, ht, htrigger, hschedule, hexec, ht',
    htrigger', hschedule'⟩

def everyTenSeconds : String := "*/10 * * * * *"

set_option maxRecDepth 20000 in
/-- What the sample firings leave. Both triggers of ten seconds have a moment at 70. -/
theorem firings_evaluated :
    FiresAt (.interval 10 false 0) 60 70 ∧ FiresAt (.interval 10 false 0) 100 110 ∧
      FiresAt (.cron everyTenSeconds false 0) 100 110 ∧
      ∃ s, Cron.Schedule.fromStr everyTenSeconds = .ok s ∧ s.At 70 := by
  have hparse : (Cron.Schedule.fromStr everyTenSeconds).map
      (fun s => s.includes (Cron.instant 70 (by decide))) = .ok true := by
    decide +kernel
  obtain ⟨s, hs, hinc⟩ := map_eq_ok.mp hparse
  exact ⟨fireAt_stored _ _ _ (by decide +kernel), fireAt_stored _ _ _ (by decide +kernel),
    fireAt_stored _ _ _ (by decide +kernel), s, hs, Cron.instant 70 (by decide), rfl, rfl, hinc⟩

/-- A reachable thread waits for the moment 60 and its firing completes `now`, with another
moment left than the one that follows 60. -/
def SkipsMoments (trigger : Trigger) (now : ℤ) : Prop :=
  ∃ w w' t t' prev next, Reachable sampleEnv.linked 1 w ∧ w.threadAt 1 = some t ∧
    t.trigger = trigger ∧ t.schedule = .timed 50 60 ∧
    threadExec sampleEnv.linked (memoCpi .none) (argsAt now) w = .ok (w', .fiber .none) ∧
    w'.threadAt 1 = some t' ∧ t'.trigger = trigger ∧ t'.schedule = .timed prev next ∧
    ¬ trigger.Follows 60 next

/-- Forty seconds late, an interval and a cron schedule of ten seconds both go on with the
moment 110 and drop those from 70 to 100. -/
theorem late_firing_skips_moments :
    SkipsMoments (.interval 10 false 0) 100 ∧ SkipsMoments (.cron everyTenSeconds false 0) 100 := by
  obtain ⟨-, hinterval, hcron, s', hs', hat⟩ := firings_evaluated
  constructor
  · obtain ⟨w, w', t, t', hr, ht, htrigger, hschedule, hexec, ht', htrigger', hschedule'⟩ :=
      hinterval
    refine ⟨w, w', t, t', 100, 110, hr, ht, htrigger, hschedule, hexec, ht', htrigger',
      hschedule', ?_⟩
    intro hfollows
    unfold Trigger.Follows at hfollows
    omega
  · obtain ⟨w, w', t, t', hr, ht, htrigger, hschedule, hexec, ht', htrigger', hschedule'⟩ := hcron
    refine ⟨w, w', t, t', 100, 110, hr, ht, htrigger, hschedule, hexec, ht', htrigger',
      hschedule', ?_⟩
    rintro ⟨s, hs, hleast⟩
    rw [hs] at hs'
    obtain rfl := Except.ok.inj hs'
    have hle := hleast.2 (show (70 : ℤ) ∈ {m | 60 < m ∧ s.At m} from ⟨by decide, hat⟩)
    omega

theorem moments_executed_once_on_time :
    ∃ w w' t t', w.threadAt 1 = some t ∧ w'.threadAt 1 = some t' ∧
      t.trigger = .interval 10 false 0 ∧ t.schedule = .timed 50 60 ∧
      threadExec sampleEnv.linked (memoCpi .none) (argsAt 60) w = .ok (w', .fiber .none) ∧
      (∃ prev next, t'.schedule = .timed prev next ∧ t.trigger.Follows 60 next) ∧
      ([Event.exec (memoCpi .none) (argsAt 60) t (.fiber .none)].flatMap
        Event.executed).count 60 = 1 := by
  obtain ⟨⟨w, w', t, t', -, ht, htrigger, hschedule, hexec, ht', htrigger', hschedule'⟩, -⟩ :=
    firings_evaluated
  have hskip : t.trigger.Unskippable := by
    rw [htrigger]
    exact ⟨rfl, rfl⟩
  have hadvances : t.trigger.Advances := by
    rw [htrigger]
    exact (by decide : (0 : ℤ) < 10)
  have hontime : t.trigger.OnTime 60 60 := by
    rw [htrigger]
    exact Or.inl ⟨rfl, by decide, by decide⟩
  obtain ⟨hstep, hrun⟩ := moments_executed_once (e := sampleEnv) ht hschedule
  have hfollows := (hstep (memoCpi .none) (argsAt 60) w' .none t' t.trigger rfl hexec (by simp) ht'
    (htrigger'.trans htrigger.symm) hskip le_rfl).mpr hontime
  have hpunctual : Punctual t.trigger (.exec (memoCpi .none) (argsAt 60) t (.fiber .none)) := by
    refine Or.inr ⟨rfl, fun prev next hs => ?_⟩
    rw [hschedule] at hs
    obtain ⟨-, rfl⟩ := Schedule.timed.inj hs
    exact ⟨le_rfl, hontime⟩
  obtain ⟨prev, next, -, hnext, -, hcount, -⟩ := hrun hskip hadvances _ w' t'
    (.cons ⟨hpunctual, rfl, ht, hexec⟩ (.nil w')) ht'
  rw [hschedule'] at hnext
  obtain ⟨-, rfl⟩ := Schedule.timed.inj hnext
  exact ⟨w, w', t, t', ht, ht', htrigger, hschedule, hexec, hfollows, hcount 60 .refl (by decide)⟩

end ThreadProgram

end Antegen
