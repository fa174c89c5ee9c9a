import Antegen.Scheduling

/-!
# Readiness off and on the chain

The client decides from the stored schedule, the program from the trigger. They agree
on intervals and cron schedules. For a timestamp the program adds a jitter that the
schedule does not hold, an immediate trigger is ready at any clock, and the age of a
slot is multiplied out with overflow checks.
-/
namespace Antegen

/-- The clock is between the timestamp and the delayed moment, on either side of it. -/
def InDelayWindow (unixTs delayed now : ℤ) : Prop :=
  (unixTs ≤ now ∧ now < delayed) ∨ (delayed ≤ now ∧ now < unixTs)

/-- Milliseconds since a slot, at 400 a slot. -/
def slotAge (clock : Clock) (slot : ℕ) : ℤ := asI64 (clock.slot - slot) * 400

/-- The age of a slot and the moment computed from it are 64-bit values. -/
def SlotAgeFits (clock : Clock) (slot : ℕ) : Prop :=
  (-2 ^ 63 ≤ slotAge clock slot ∧ slotAge clock slot < 2 ^ 63) ∧
    (-2 ^ 63 ≤ clock.unixTimestamp - (slotAge clock slot).tdiv 1000 ∧
      clock.unixTimestamp - (slotAge clock slot).tdiv 1000 < 2 ^ 63)

/-- When client and program see a trigger alike. -/
def SeenAlike (h : Host) (thread : Pubkey) (t : Thread) (clock : Clock) : Prop :=
  match t.trigger, t.schedule with
  | .immediate _, .timed _ next => next ≤ clock.unixTimestamp
  | .timestamp unixTs jitter, _ =>
    ¬ InDelayWindow unixTs
      (saturate (unixTs + calculateJitterOffset h t.getLastStartedAt thread jitter))
      clock.unixTimestamp
  | .slot slot, _ => slot ≤ clock.slot → SlotAgeFits clock slot
  | _, _ => True

/-- The triggers that the client tests against a clock. -/
def Trigger.onClock : Trigger → Bool
  | .account _ _ _ => false
  | .epoch _ => false
  | _ => true

/-- What the program tests, for each trigger of the right kind. -/
theorem validateTrigger_ok_iff {h : Host} {t : Thread} {clock : Clock}
    {remaining : List AccountInfo} {thread : Pubkey} (hsuits : t.trigger.Suits t.schedule)
    (hclock : t.trigger.onClock = true) :
    (∃ n, validateTrigger h t clock remaining thread = .ok n) ↔
      match t.trigger, t.schedule with
      | .immediate _, _ => True
      | .timestamp unixTs jitter, _ =>
        saturate (unixTs + calculateJitterOffset h t.getLastStartedAt thread jitter) ≤
          clock.unixTimestamp
      | .slot slot, _ => slot ≤ clock.slot ∧ SlotAgeFits clock slot
      | _, .timed _ next => next ≤ clock.unixTimestamp
      | _, _ => False := by
  simp only [validateTrigger, bind_eq_ok, pure_eq_ok, triggerReadyTime]
  cases htrigger : t.trigger with
  | account address offset size => simp [htrigger, Trigger.onClock] at hclock
  | epoch epoch => simp [htrigger, Trigger.onClock] at hclock
  | immediate jitter => simp
  | timestamp unixTs jitter => simp [-bind_pure_comp]
  | slot slot => simp [slotReadyTime, SlotAgeFits, slotAge]
  | interval seconds skippable jitter =>
    cases hschedule : t.schedule with
    | timed prev next => simp [-bind_pure_comp, scheduledReadyTime, hschedule]
    | block prev next => rw [htrigger, hschedule] at hsuits; exact hsuits.elim
    | onChange prev => rw [htrigger, hschedule] at hsuits; exact hsuits.elim
  | cron expression skippable jitter =>
    cases hschedule : t.schedule with
    | timed prev next => simp [-bind_pure_comp, scheduledReadyTime, hschedule]
    | block prev next => rw [htrigger, hschedule] at hsuits; exact hsuits.elim
    | onChange prev => rw [htrigger, hschedule] at hsuits; exact hsuits.elim

/-- What the client tests on the thread, for each trigger of the right kind. -/
theorem isReady_iff {t : Thread} {slot : ℕ} {now : ℤ} (hsuits : t.trigger.Suits t.schedule)
    (hclock : t.trigger.onClock = true) :
    t.isReady slot now = true ↔
      match t.trigger, t.schedule with
      | .slot n, _ => n ≤ slot
      | _, .timed _ next => next ≤ now
      | _, _ => False := by
  unfold Thread.isReady
  revert hsuits hclock
  cases t.trigger with
  | slot n => cases t.schedule <;> simp +contextual [Trigger.Suits]
  | account address offset size => simp [Trigger.onClock]
  | epoch n => simp [Trigger.onClock]
  | immediate jitter => cases t.schedule <;> simp [Trigger.Suits]
  | timestamp unixTs jitter => cases t.schedule <;> simp [Trigger.Suits]
  | interval seconds skippable jitter => cases t.schedule <;> simp [Trigger.Suits]
  | cron expression skippable jitter => cases t.schedule <;> simp [Trigger.Suits]

/-- At a clock from the epoch on, the entry in the queue is due when the thread is ready. -/
theorem due_iff_isReady {t : Thread} {clock : Clock} (hsuits : t.trigger.Suits t.schedule)
    (hclock : t.trigger.onClock = true) (hnow : 0 ≤ clock.unixTimestamp) (thread : Pubkey) :
    (Staging.scheduleThread thread t).due clock = true ↔
      t.isReady clock.slot clock.unixTimestamp = true := by
  have hmax : ∀ next : ℤ, (max next 0).toNat ≤ (max clock.unixTimestamp 0).toNat ↔
      next ≤ clock.unixTimestamp := by
    intro next
    omega
  rw [isReady_iff hsuits hclock]
  unfold Staging.scheduleThread
  revert hsuits hclock
  cases t.trigger <;> cases t.schedule <;>
    simp +contextual [Trigger.Suits, Trigger.onClock, Staging.Scheduled.due,
      Staging.ScheduledThread.due, Staging.currentValue, hmax]

namespace ThreadProgram

/-- In every reachable state and at every clock from the epoch on, the two tests of the
client give what the program answers, exactly if both sides see the trigger alike. -/
theorem readiness_agrees_iff {e : Env} {thread : Pubkey} {w : Ledger} (h : Reachable e thread w)
    {t : Thread} (ht : w.threadAt thread = some t) (hclock : t.trigger.onClock = true)
    {clock : Clock} (hnow : 0 ≤ clock.unixTimestamp) (remaining : List AccountInfo) :
    ((t.isReady clock.slot clock.unixTimestamp = true ↔
        ∃ n, validateTrigger e.toHost t clock remaining thread = .ok n) ∧
      ((Staging.scheduleThread thread t).due clock = true ↔
        ∃ n, validateTrigger e.toHost t clock remaining thread = .ok n)) ↔
    SeenAlike e.toHost thread t clock := by
  have hsuits : t.trigger.Suits t.schedule := suits_of_reachable h t ht
  rw [due_iff_isReady hsuits hclock hnow, and_self, isReady_iff hsuits hclock,
    validateTrigger_ok_iff hsuits hclock]
  unfold SeenAlike
  clear ht
  revert hsuits hclock
  cases t.trigger with
  | account address offset size => simp [Trigger.onClock]
  | epoch epoch => simp [Trigger.onClock]
  | immediate jitter => cases t.schedule <;> simp [Trigger.Suits]
  | timestamp unixTs jitter =>
    cases t.schedule with
    | timed prev next =>
      intro _ hsuits
      rw [show next = unixTs from hsuits]
      simp only [InDelayWindow]
      omega
    | block prev next => exact fun _ hsuits => hsuits.elim
    | onChange prev => exact fun _ hsuits => hsuits.elim
  | interval seconds skippable jitter => cases t.schedule <;> simp [Trigger.Suits]
  | cron expression skippable jitter => cases t.schedule <;> simp [Trigger.Suits]
  | slot slot => cases t.schedule <;> simp [Trigger.Suits]

/-- The small world with a delay of 50 seconds, unless the jitter is shorter. -/
def lateEnv : Env := { sampleEnv with jitterHash := fun _ _ => 50 }

/-- A timestamp thread of the small world, and how it looks 40 seconds after its timestamp. -/
theorem delayed_timestamp_created :
    ∃ w t, Reachable lateEnv 1 w ∧ w.threadAt 1 = some t ∧
      ((t.paused, t.fiberSignal, t.trigger),
        (t.isReady 100 100, (Staging.scheduleThread 1 t).due ⟨100, 1, 100⟩),
        validateTrigger lateEnv.toHost t ⟨100, 1, 100⟩ [] 1) =
      ((false, .none, .timestamp 60 1000), (true, true),
        .error (.thread .triggerConditionFailed)) := by
  have hrun : (threadCreate lateEnv (sampleCreate (.timestamp 60 1000)) payerLedger).map
      (fun w => (w.threadAt 1).map fun t => ((t.paused, t.fiberSignal, t.trigger),
        (t.isReady 100 100, (Staging.scheduleThread 1 t).due ⟨100, 1, 100⟩),
        validateTrigger lateEnv.toHost t ⟨100, 1, 100⟩ [] 1)) =
      .ok (some ((false, .none, .timestamp 60 1000), (true, true),
        .error (.thread .triggerConditionFailed))) := by
    decide +kernel
  obtain ⟨w, hcreate, hstored⟩ := map_eq_ok.mp hrun
  obtain ⟨t, ht, hfields⟩ := Option.map_eq_some_iff.mp hstored
  exact ⟨w, t, threadCreate_reachable rfl hcreate, ht, hfields⟩

/-- A timestamp is reached, but not yet the delayed moment. -/
theorem delayed_timestamp_looks_ready :
    ∃ w t, Reachable lateEnv 1 w ∧ w.threadAt 1 = some t ∧ t.paused = false ∧
      t.fiberSignal = .none ∧ t.trigger = .timestamp 60 1000 ∧
      t.isReady 100 100 = true ∧ (Staging.scheduleThread 1 t).due ⟨100, 1, 100⟩ = true ∧
      ¬ ∃ n, validateTrigger lateEnv.toHost t ⟨100, 1, 100⟩ [] 1 = .ok n := by
  obtain ⟨w, t, hr, ht, hfields⟩ := delayed_timestamp_created
  simp only [Prod.mk.injEq] at hfields
  obtain ⟨⟨hpaused, hsignal, htrigger⟩, ⟨hready, hdue⟩, hfails⟩ := hfields
  refine ⟨w, t, hr, ht, hpaused, hsignal, htrigger, hready, hdue, ?_⟩
  rintro ⟨n, hn⟩
  rw [hn] at hfails
  exact absurd hfails (by simp)

theorem delayed_timestamp_agrees :
    ∃ w t, Reachable lateEnv 1 w ∧ w.threadAt 1 = some t ∧
      (t.isReady 200 200 = true ↔
        ∃ n, validateTrigger lateEnv.toHost t ⟨200, 1, 200⟩ [] 1 = .ok n) := by
  obtain ⟨w, t, hr, ht, hfields⟩ := delayed_timestamp_created
  have htrigger : t.trigger = .timestamp 60 1000 := congrArg (fun fields => fields.1.2.2) hfields
  have halike : SeenAlike lateEnv.toHost 1 t ⟨200, 1, 200⟩ := by
    have hdelay : calculateJitterOffset lateEnv.toHost t.getLastStartedAt 1 1000 = 50 := rfl
    unfold SeenAlike
    rw [htrigger]
    simp only [hdelay, InDelayWindow, saturate]
    omega
  have hagrees := (readiness_agrees_iff hr ht (by rw [htrigger]; rfl) (by decide) []).mpr halike
  exact ⟨w, t, hr, ht, hagrees.1⟩

end ThreadProgram

end Antegen
