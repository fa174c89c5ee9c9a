import Antegen.Readiness

/-!
# Jitter

A thread is delayed by a hash of its previous start, reduced modulo the jitter. The remainder
is cast to a signed integer, so a jitter beyond half of the range can turn the delay into an
advance. An interval or a cron schedule keeps the delayed moment, a timestamp is delayed when
it is tested. An immediate trigger adds the delay to the clock that it is tested at, and
compares nothing.
-/
namespace Antegen

/-- The jitter of the triggers that have one. -/
def Trigger.jitter : Trigger → Option ℕ
  | .immediate jitter => some jitter
  | .timestamp _ jitter => some jitter
  | .interval _ _ jitter => some jitter
  | .cron _ _ jitter => some jitter
  | _ => none

/-- The hash reduced modulo the jitter, before the cast. -/
def rawJitter (h : Host) (prev : ℤ) (thread : Pubkey) (jitter : ℕ) : ℕ :=
  if jitter = 0 then 0 else h.jitterHash prev thread % jitter

/-- The moment of a trigger that was armed at `prev`, without its delay. -/
def Trigger.moment (h : Host) (prev : ℤ) : Trigger → ℤ
  | .timestamp unixTs _ => unixTs
  | .interval seconds _ _ => prev + seconds
  | .cron schedule _ _ => (h.nextTimestamp prev schedule).toOption.join.getD prev
  | _ => prev

/-- The schedule of an interval or a cron trigger holds its delayed moment. -/
def Trigger.Armed (h : Host) (thread : Pubkey) : Trigger → Schedule → Prop
  | .interval seconds _ jitter, .timed prev next =>
    next = saturate (saturate (prev + seconds) + calculateJitterOffset h prev thread jitter)
  | .cron schedule skippable jitter, .timed prev next =>
    next = saturate (Trigger.moment h prev (.cron schedule skippable jitter) +
      calculateJitterOffset h prev thread jitter)
  | _, _ => True

/-- The delay is within its window, and the thread is not validated before the delayed moment
or with a negative age. -/
structure DelaysWithin (h : Host) (t : Thread) (thread : Pubkey) (jitter : ℕ) (clock : Clock)
    (remaining : List AccountInfo) : Prop where
  nonneg : 0 ≤ calculateJitterOffset h t.getLastStartedAt thread jitter
  bounded : calculateJitterOffset h t.getLastStartedAt thread jitter < max jitter 1
  validated : ∀ n, validateTrigger h t clock remaining thread = .ok n →
    t.trigger.moment h t.getLastStartedAt +
      calculateJitterOffset h t.getLastStartedAt thread jitter ≤ clock.unixTimestamp ∧ 0 ≤ n

/-- The remainder does not change sign. At the last second of the clock the delayed moment is
not beyond it. An immediate trigger has no delay, or is at the last second, and was armed that
long before. -/
def KeepsDelay (h : Host) (t : Thread) (thread : Pubkey) (jitter : ℕ) (clock : Clock) : Prop :=
  let raw := rawJitter h t.getLastStartedAt thread jitter
  let delayed := t.trigger.moment h t.getLastStartedAt + raw
  raw < 2 ^ 63 ∧
    if t.trigger = .immediate jitter then
      delayed ≤ clock.unixTimestamp ∧ (raw = 0 ∨ clock.unixTimestamp = 2 ^ 63 - 1)
    else clock.unixTimestamp = 2 ^ 63 - 1 → delayed ≤ clock.unixTimestamp

/-! ## The offset -/

theorem calculateJitterOffset_eq (h : Host) (prev : ℤ) (thread : Pubkey) (jitter : ℕ) :
    calculateJitterOffset h prev thread jitter = asI64 (rawJitter h prev thread jitter) := by
  unfold calculateJitterOffset rawJitter
  split_ifs
  · rfl
  · rfl

theorem rawJitter_lt (h : Host) (prev : ℤ) (thread : Pubkey) (jitter : ℕ) :
    rawJitter h prev thread jitter < max jitter 1 := by
  unfold rawJitter
  split_ifs with hzero
  · omega
  · have hlt := Nat.mod_lt (h.jitterHash prev thread) (Nat.pos_of_ne_zero hzero)
    omega

/-- The offset is in its window exactly if the remainder does not change sign. -/
theorem jitterOffset_mem_iff (h : Host) (prev : ℤ) (thread : Pubkey) {jitter : ℕ}
    (hjitter : jitter < 2 ^ 64) :
    (0 ≤ calculateJitterOffset h prev thread jitter ∧
      calculateJitterOffset h prev thread jitter < max jitter 1) ↔
      rawJitter h prev thread jitter < 2 ^ 63 := by
  have hraw := rawJitter_lt h prev thread jitter
  rw [calculateJitterOffset_eq]
  unfold asI64
  split_ifs with hlow
  · refine iff_of_true ?_ hlow
    omega
  · refine iff_of_false ?_ hlow
    omega

theorem jitterOffset_of_lt {h : Host} {prev : ℤ} {thread : Pubkey} {jitter : ℕ}
    (hraw : rawJitter h prev thread jitter < 2 ^ 63) :
    calculateJitterOffset h prev thread jitter = rawJitter h prev thread jitter := by
  rw [calculateJitterOffset_eq]
  exact if_pos hraw

/-! ## The schedule -/

theorem initialSchedule_armed {h : Host} {trigger : Trigger} {clock : Clock} {thread : Pubkey}
    {schedule : Schedule} (hs : initialSchedule h trigger clock thread = .ok schedule) :
    trigger.Armed h thread schedule := by
  cases trigger with
  | cron expression skippable jitter =>
    simp only [initialSchedule, bind_eq_ok, pure_eq_ok] at hs
    obtain ⟨found, hfound, rfl⟩ := hs
    simp only [Trigger.Armed, Trigger.moment, hfound]
    rfl
  | interval seconds skippable jitter =>
    rw [← Except.ok.inj hs]
    rfl
  | account address offset size => exact trivial
  | immediate jitter => exact trivial
  | timestamp unixTs jitter => exact trivial
  | slot slot => exact trivial
  | epoch epoch => exact trivial

theorem nextSchedule_armed {h : Host} {trigger : Trigger} {clock : Clock}
    {remaining : List AccountInfo} {thread : Pubkey} {schedule : Schedule}
    (hs : nextSchedule h trigger clock remaining thread = .ok schedule) :
    trigger.Armed h thread schedule := by
  cases trigger with
  | cron expression skippable jitter =>
    simp only [nextSchedule, bind_eq_ok, pure_eq_ok, ofOption_eq_ok] at hs
    obtain ⟨found, hfound, moment, rfl, rfl⟩ := hs
    simp only [Trigger.Armed, Trigger.moment, hfound]
    rfl
  | interval seconds skippable jitter =>
    rw [← Except.ok.inj hs]
    rfl
  | account address offset size => exact trivial
  | immediate jitter => exact trivial
  | timestamp unixTs jitter => exact trivial
  | slot slot => exact trivial
  | epoch epoch => exact trivial

namespace ThreadProgram

theorem armed_of_reachable {e : Env} {thread : Pubkey} {w : Ledger} (h : Reachable e thread w) :
    Holds thread (fun t => t.trigger.Armed e.toHost thread t.schedule) w :=
  scheduled_of_reachable (P := fun thread trigger schedule =>
    trigger.Armed e.toHost thread schedule) initialSchedule_armed nextSchedule_armed h

end ThreadProgram

/-! ## Validation -/

/-- A moment that was delayed and saturated is reached when the exact one is, except at the
last second. -/
theorem saturate_le_imp_iff {z now : ℤ} (hnow : now < 2 ^ 63) :
    (saturate z ≤ now → z ≤ now) ↔ (now = 2 ^ 63 - 1 → z ≤ now) := by
  unfold saturate
  omega

/-- The same for a moment that was saturated before it was delayed. -/
theorem saturate_saturate_le_imp_iff {z now : ℤ} {raw : ℕ} (hnow : now < 2 ^ 63) :
    (saturate (saturate z + raw) ≤ now → z + raw ≤ now) ↔
      (now = 2 ^ 63 - 1 → z + raw ≤ now) := by
  unfold saturate
  omega

/-- A trigger that compares a moment with the clock has a nonnegative age. -/
theorem validated_iff_of_compared {h : Host} {t : Thread} {clock : Clock}
    {remaining : List AccountInfo} {thread : Pubkey} {ready : ℤ} {P : Prop}
    (hready : triggerReadyTime h t clock remaining thread = do
      require (ready ≤ clock.unixTimestamp) (.thread .triggerConditionFailed)
      pure ready) :
    (∀ n, validateTrigger h t clock remaining thread = .ok n → P ∧ 0 ≤ n) ↔
      (ready ≤ clock.unixTimestamp → P) := by
  simp only [validateTrigger, hready, bind_eq_ok, require_eq_ok, pure_eq_ok, exists_and_left,
    exists_const]
  constructor
  · intro hall hle
    exact (hall _ ⟨ready, ⟨hle, rfl⟩, rfl⟩).1
  · rintro hcompared n ⟨_, ⟨hle, rfl⟩, rfl⟩
    refine ⟨hcompared hle, ?_⟩
    unfold saturate
    omega

/-- The moment of a schedule is compared as it is stored. -/
theorem validated_iff_of_scheduled {h : Host} {t : Thread} {clock : Clock}
    {remaining : List AccountInfo} {thread : Pubkey} {prev next : ℤ} {P : Prop}
    (hschedule : t.schedule = .timed prev next)
    (hready : triggerReadyTime h t clock remaining thread = scheduledReadyTime t clock) :
    (∀ n, validateTrigger h t clock remaining thread = .ok n → P ∧ 0 ≤ n) ↔
      (next ≤ clock.unixTimestamp → P) := by
  apply validated_iff_of_compared
  rw [hready, scheduledReadyTime, hschedule]

/-- A trigger with a jitter has a moment in time for its schedule. -/
theorem Trigger.Suits.timed {trigger : Trigger} {schedule : Schedule} {jitter : ℕ}
    (hsuits : trigger.Suits schedule) (hjitter : trigger.jitter = some jitter) :
    ∃ prev next, schedule = .timed prev next := by
  cases schedule with
  | timed prev next => exact ⟨prev, next, rfl⟩
  | onChange prev => cases trigger <;> simp [Trigger.Suits, Trigger.jitter] at hsuits hjitter
  | block prev next => cases trigger <;> simp [Trigger.Suits, Trigger.jitter] at hsuits hjitter

/-- An immediate trigger is validated at any clock, with the delay as its age. -/
theorem validated_iff_of_immediate {h : Host} {t : Thread} {clock : Clock}
    {remaining : List AccountInfo} {thread : Pubkey} {jitter : ℕ}
    (htrigger : t.trigger = .immediate jitter) {raw : ℕ}
    (hraw : calculateJitterOffset h t.getLastStartedAt thread jitter = raw)
    (hnow : -2 ^ 63 ≤ clock.unixTimestamp ∧ clock.unixTimestamp < 2 ^ 63) {P : Prop} :
    (∀ n, validateTrigger h t clock remaining thread = .ok n → P ∧ 0 ≤ n) ↔
      P ∧ (raw = 0 ∨ clock.unixTimestamp = 2 ^ 63 - 1) := by
  have hvalidated : validateTrigger h t clock remaining thread =
      .ok (saturate (clock.unixTimestamp - saturate (clock.unixTimestamp + raw))) := by
    unfold validateTrigger triggerReadyTime
    rw [htrigger]
    simp only [hraw]
    rfl
  have hage : 0 ≤ saturate (clock.unixTimestamp - saturate (clock.unixTimestamp + raw)) ↔
      raw = 0 ∨ clock.unixTimestamp = 2 ^ 63 - 1 := by
    unfold saturate
    omega
  rw [hvalidated, ← hage]
  constructor
  · intro hall
    exact hall _ rfl
  · intro hboth n hn
    rw [← Except.ok.inj hn]
    exact hboth

/-- With the offset in its window, a thread that is armed is validated too early, or with a
negative age, in no other cases than these. -/
theorem validated_iff {h : Host} {t : Thread} {thread : Pubkey} {jitter : ℕ}
    (hjitter : t.trigger.jitter = some jitter) (hsuits : t.trigger.Suits t.schedule)
    (harmed : t.trigger.Armed h thread t.schedule) {clock : Clock}
    (hnow : -2 ^ 63 ≤ clock.unixTimestamp ∧ clock.unixTimestamp < 2 ^ 63)
    (remaining : List AccountInfo) (hraw : rawJitter h t.getLastStartedAt thread jitter < 2 ^ 63) :
    (∀ n, validateTrigger h t clock remaining thread = .ok n →
      t.trigger.moment h t.getLastStartedAt + rawJitter h t.getLastStartedAt thread jitter ≤
        clock.unixTimestamp ∧ 0 ≤ n) ↔ KeepsDelay h t thread jitter clock := by
  have hoffset := jitterOffset_of_lt hraw
  obtain ⟨prev, next, hschedule⟩ := hsuits.timed hjitter
  have hprev : t.getLastStartedAt = prev := by
    unfold Thread.getLastStartedAt
    rw [hschedule]
  unfold KeepsDelay
  simp only [hraw, true_and]
  rw [hschedule] at harmed
  cases htrigger : t.trigger with
  | account address offset size => simp [htrigger, Trigger.jitter] at hjitter
  | slot slot => simp [htrigger, Trigger.jitter] at hjitter
  | epoch epoch => simp [htrigger, Trigger.jitter] at hjitter
  | immediate j =>
    rw [htrigger] at hjitter
    obtain rfl := Option.some.inj hjitter
    rw [if_pos rfl]
    exact validated_iff_of_immediate htrigger hoffset hnow
  | timestamp unixTs j =>
    rw [htrigger] at hjitter
    obtain rfl := Option.some.inj hjitter
    rw [if_neg (by simp), ← saturate_le_imp_iff hnow.2]
    refine validated_iff_of_compared ?_
    unfold triggerReadyTime
    rw [htrigger]
    simp only [hoffset]
    rfl
  | interval seconds skippable j =>
    rw [htrigger] at hjitter harmed
    obtain rfl := Option.some.inj hjitter
    rw [hprev] at hoffset ⊢
    simp only [Trigger.Armed, hoffset] at harmed
    simp only [Trigger.moment, reduceCtorEq, if_false]
    rw [← saturate_saturate_le_imp_iff hnow.2, ← harmed]
    exact validated_iff_of_scheduled hschedule (by rw [triggerReadyTime, htrigger])
  | cron schedule skippable j =>
    rw [htrigger] at hjitter harmed
    obtain rfl := Option.some.inj hjitter
    rw [hprev] at hoffset ⊢
    simp only [Trigger.Armed, hoffset] at harmed
    rw [if_neg (by simp), ← saturate_le_imp_iff hnow.2, ← harmed]
    exact validated_iff_of_scheduled hschedule (by rw [triggerReadyTime, htrigger])

namespace ThreadProgram

/-- The offset is in its window exactly if the remainder does not change sign. In every
reachable state a thread with a jitter is delayed by an offset in its window and not more,
exactly if its delay is kept. -/
theorem jitter_delays_iff (e : Env) (thread : Pubkey) (jitter : ℕ) (hjitter : jitter < 2 ^ 64) :
    (∀ prev, (0 ≤ calculateJitterOffset e.toHost prev thread jitter ∧
      calculateJitterOffset e.toHost prev thread jitter < max jitter 1) ↔
        rawJitter e.toHost prev thread jitter < 2 ^ 63) ∧
    ∀ w t, Reachable e thread w → w.threadAt thread = some t → t.trigger.jitter = some jitter →
      ∀ (clock : Clock) (remaining : List AccountInfo),
        -2 ^ 63 ≤ clock.unixTimestamp → clock.unixTimestamp < 2 ^ 63 →
          (DelaysWithin e.toHost t thread jitter clock remaining ↔
            KeepsDelay e.toHost t thread jitter clock) := by
  refine ⟨fun prev => jitterOffset_mem_iff e.toHost prev thread hjitter, ?_⟩
  intro w t hr ht hj clock remaining hmin hmax
  have hsuits := suits_of_reachable hr t ht
  have harmed := armed_of_reachable hr t ht
  constructor
  · rintro ⟨hnonneg, hbounded, hvalidated⟩
    have hraw := (jitterOffset_mem_iff e.toHost t.getLastStartedAt thread hjitter).mp
      ⟨hnonneg, hbounded⟩
    rw [jitterOffset_of_lt hraw] at hvalidated
    exact (validated_iff hj hsuits harmed ⟨hmin, hmax⟩ remaining hraw).mp hvalidated
  · intro hkeeps
    have hraw := hkeeps.1
    obtain ⟨hnonneg, hbounded⟩ :=
      (jitterOffset_mem_iff e.toHost t.getLastStartedAt thread hjitter).mpr hraw
    refine ⟨hnonneg, hbounded, ?_⟩
    rw [jitterOffset_of_lt hraw]
    exact (validated_iff hj hsuits harmed ⟨hmin, hmax⟩ remaining hraw).mpr hkeeps

/-- An immediate trigger that is armed at 50 and delayed by 50 seconds is validated at 60, with
an age of minus 50. A hash of 2⁶³ is an advance of as many seconds. -/
theorem jitter_fires_early :
    (∃ w t, Reachable lateEnv 1 w ∧ w.threadAt 1 = some t ∧ t.trigger = .immediate 1000 ∧
      t.getLastStartedAt = 50 ∧ calculateJitterOffset lateEnv.toHost 50 1 1000 = 50 ∧
      validateTrigger lateEnv.toHost t ⟨100, 1, 60⟩ [] 1 = .ok (-50)) ∧
    calculateJitterOffset { lateEnv.toHost with jitterHash := fun _ _ => 2 ^ 63 } 50 1
      (2 ^ 63 + 1) = -2 ^ 63 := by
  have hrun : (threadCreate lateEnv (sampleCreate (.immediate 1000)) payerLedger).map
      (fun w => (w.threadAt 1).map fun t => (t.trigger, t.getLastStartedAt,
        validateTrigger lateEnv.toHost t ⟨100, 1, 60⟩ [] 1)) =
      .ok (some (.immediate 1000, 50, .ok (-50))) := by
    decide +kernel
  obtain ⟨w, hcreate, hstored⟩ := map_eq_ok.mp hrun
  obtain ⟨t, ht, hfields⟩ := Option.map_eq_some_iff.mp hstored
  simp only [Prod.mk.injEq] at hfields
  obtain ⟨htrigger, hprev, hvalidated⟩ := hfields
  exact ⟨⟨w, t, threadCreate_reachable rfl hcreate, ht, htrigger, hprev, by decide, hvalidated⟩,
    by decide +kernel⟩

/-- A timestamp of 60, which is delayed by 50 seconds and tested at 200. -/
theorem jitter_delays_timestamp :
    ∃ w t, Reachable lateEnv 1 w ∧ w.threadAt 1 = some t ∧
      DelaysWithin lateEnv.toHost t 1 1000 ⟨200, 1, 200⟩ [] := by
  obtain ⟨w, t, hr, ht, hfields⟩ := delayed_timestamp_created
  have htrigger : t.trigger = .timestamp 60 1000 := congrArg (fun fields => fields.1.2.2) hfields
  have hjitter : t.trigger.jitter = some 1000 := by
    rw [htrigger]
    rfl
  have hraw : rawJitter lateEnv.toHost t.getLastStartedAt 1 1000 = 50 := rfl
  refine ⟨w, t, hr, ht, ((jitter_delays_iff lateEnv 1 1000 (by norm_num)).2 w t hr ht hjitter
    ⟨200, 1, 200⟩ [] (by norm_num) (by norm_num)).mpr ?_⟩
  unfold KeepsDelay
  simp only [hraw, htrigger, Trigger.moment, reduceCtorEq, if_false]
  norm_num

end ThreadProgram

end Antegen
