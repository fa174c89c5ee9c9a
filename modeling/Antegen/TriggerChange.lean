import Antegen.Staging
import Antegen.ThreadRuns

/-!
# Two ways to change a trigger

The authority changes a trigger by `thread_update`, a fiber by the signal it returns. Both
unpause the thread unless they are told otherwise, and each has its own code for the new
schedule. The schedules agree from the moment of the change on. The pause does not: a
timestamp that has fired pauses the thread after its signal was applied.
-/
namespace Antegen

def Trigger.isAccount : Trigger → Bool
  | .account _ _ _ => true
  | _ => false

/-- What `update_schedule` computes, `thread_update` computes too, except that an immediate
trigger is ready at the current time instead of zero. -/
theorem initialSchedule_of_nextSchedule {h : Host} {trigger : Trigger} {clock : Clock}
    {remaining : List AccountInfo} {thread : Pubkey} {schedule : Schedule}
    (hs : nextSchedule h trigger clock remaining thread = .ok schedule)
    (haccount : trigger.isAccount = false) :
    ∃ schedule', initialSchedule h trigger clock thread = .ok schedule' ∧
      (schedule' = schedule ∨ (trigger.isImmediate = true ∧
        schedule = .timed clock.unixTimestamp 0 ∧
        schedule' = .timed clock.unixTimestamp clock.unixTimestamp)) := by
  cases trigger with
  | account address offset size => exact absurd haccount (by simp [Trigger.isAccount])
  | cron expression skippable jitter =>
    simp only [nextSchedule, bind_eq_ok, pure_eq_ok, ofOption_eq_ok] at hs
    obtain ⟨found, hfound, m, rfl, rfl⟩ := hs
    refine ⟨_, ?_, Or.inl rfl⟩
    simp only [initialSchedule, bind_eq_ok, pure_eq_ok]
    exact ⟨some m, hfound, rfl⟩
  | immediate jitter =>
    exact ⟨_, rfl, Or.inr ⟨rfl, (Except.ok.inj hs).symm, rfl⟩⟩
  | timestamp unixTs jitter => exact ⟨schedule, hs, Or.inl rfl⟩
  | interval seconds skippable jitter => exact ⟨schedule, hs, Or.inl rfl⟩
  | slot slot => exact ⟨schedule, hs, Or.inl rfl⟩
  | epoch epoch => exact ⟨schedule, hs, Or.inl rfl⟩

/-- The program tests nothing of a thread but its trigger and its schedule, and for an
immediate trigger only the time of the last start. -/
theorem validateTrigger_eq {h : Host} {t t' : Thread} (htrigger : t.trigger = t'.trigger)
    (hcreated : t.createdAt = t'.createdAt)
    (hschedule : t'.schedule = t.schedule ∨ (t.trigger.isImmediate = true ∧
      ∃ prev next next', t.schedule = .timed prev next ∧ t'.schedule = .timed prev next'))
    (clock : Clock) (remaining : List AccountInfo) (thread : Pubkey) :
    validateTrigger h t clock remaining thread = validateTrigger h t' clock remaining thread := by
  rcases hschedule with hsame | ⟨himmediate, prev, next, next', hs, hs'⟩
  · have hstart : t.getLastStartedAt = t'.getLastStartedAt := by
      unfold Thread.getLastStartedAt
      rw [hsame, hcreated]
    unfold validateTrigger triggerReadyTime
    rw [← htrigger, hstart]
    simp only [scheduledReadyTime, changedReadyTime, hsame]
  · have hstart : t.getLastStartedAt = t'.getLastStartedAt := by
      unfold Thread.getLastStartedAt
      rw [hs, hs']
    unfold validateTrigger triggerReadyTime
    rw [← htrigger, hstart]
    cases htrig : t.trigger with
    | immediate jitter => rfl
    | _ => exact absurd himmediate (by simp [htrig, Trigger.isImmediate])

namespace ThreadProgram

/-- The same trigger and pause, and ready for an execution at the same clocks. -/
structure SameFrom (h : Host) (thread : Pubkey) (t t' : Thread) : Prop where
  trigger : t.trigger = t'.trigger
  paused : t.paused = t'.paused
  ready : ∀ clock remaining, (∃ n, validateTrigger h t clock remaining thread = .ok n) ↔
    ∃ n, validateTrigger h t' clock remaining thread = .ok n

theorem threadUpdate_succeeds {e : Env} {u : ThreadUpdateArgs} {w : Ledger} {t t' : Thread}
    (ht : w.threadAt u.thread = some t)
    (haddress : e.threadAddress t.authority t.id t.bump = some u.thread)
    (hauthority : u.authority = t.authority) (hu : updatedThread e u t = .ok t') :
    ∃ w', threadUpdate e u w = .ok w' ∧ w'.threadAt u.thread = some t' := by
  have howner := (Ledger.threadAt_eq_some.mp ht).1
  obtain ⟨w', hexit⟩ := Ledger.exitThread_succeeds (Or.inr howner) t'
  refine ⟨w', ?_, Ledger.threadAt_exitThread_of_owner hexit howner⟩
  simp only [threadUpdate, checkSeeds, bind_eq_ok, require_eq_ok, exists_and_left, exists_const]
  exact ⟨t, Ledger.loadThread_eq_ok.mpr ht, haddress, hauthority, t', hu, hexit⟩

/-- The client tests the stored time; an immediate trigger's is past either way. -/
theorem isReady_iff_of_changed {t t' : Thread} {now : ℤ} (hnow : 0 ≤ now)
    (htrigger : t.trigger = t'.trigger)
    (hschedule : t'.schedule = t.schedule ∨ (t.schedule = .timed now 0 ∧ t'.schedule = .timed now now))
    {slot : ℕ} {timestamp : ℤ} (hlater : now ≤ timestamp) :
    t.isReady slot timestamp = t'.isReady slot timestamp := by
  unfold Thread.isReady
  rcases hschedule with hsame | ⟨hs, hs'⟩
  · rw [hsame, htrigger]
  · rw [hs, hs']
    simp only [decide_eq_decide]
    omega

/-- The thread left by a signal that changes the trigger, next to the one left by the
instruction. -/
theorem Execution.changed {e : Env} {cpi : Cpi} {a : ExecArgs} {w w' : Ledger} {p : Option Bool}
    {trigger : Trigger} {index : Option UInt8}
    (x : Execution e cpi a w w' (.update p (some trigger) index))
    (haccount : trigger.isAccount = false) {u : ThreadUpdateArgs} (hthread : u.thread = a.thread)
    (hclock : u.clock = a.clock) (hpaused : u.paused = p) (htrigger : u.trigger = some trigger) :
    ∃ t', updatedThread e u x.thread = .ok t' ∧ x.finished.trigger = t'.trigger ∧
      x.finished.createdAt = t'.createdAt ∧ t'.paused = p.getD false ∧
      x.finished.paused = (if x.thread.trigger.isTimestamp ∧ p = none then true else p.getD false) ∧
      (t'.schedule = x.finished.schedule ∨ (trigger.isImmediate = true ∧
        x.finished.schedule = .timed a.clock.unixTimestamp 0 ∧
        t'.schedule = .timed a.clock.unixTimestamp a.clock.unixTimestamp)) := by
  have htrig : x.finished.trigger = trigger := by
    rw [x.finished_trigger]
    rfl
  have hnext := x.finished_schedule
  simp only [reduceCtorEq, false_and, false_or, ne_eq, not_false_eq_true, true_and, htrig] at hnext
  obtain ⟨schedule, hinitial, hschedules⟩ := initialSchedule_of_nextSchedule hnext haccount
  refine ⟨{ x.thread with
    trigger := trigger
    schedule := schedule
    paused := p.getD false }, ?_, htrig, x.finished_frame.2.2.2.1, rfl, ?_, hschedules⟩
  · simp only [updatedThread, htrigger, hthread, hclock, hpaused, hinitial, bind_eq_ok, pure_eq_ok,
      Except.ok.injEq, exists_eq_left']
    cases p with
    | none => rfl
    | some b => rfl
  · rw [x.finished_paused]
    rcases p with _ | _ | _ <;> simp [Signal.unpauses, Signal.newPaused]

/-- An execution whose fiber changes the trigger and the instruction that does the same at
the same clock leave the same trigger and pause, ready at the same clocks, if and only if
the trigger that fired is no timestamp or the pause is given. The client sees them alike,
from the change on. -/
theorem trigger_changes_agree_iff {e : Env} {cpi : Cpi} {a : ExecArgs} {w w' : Ledger}
    {p : Option Bool} {trigger : Trigger} {index : Option UInt8}
    (hexec : threadExec e cpi a w = .ok (w', .fiber (.update p (some trigger) index)))
    (haccount : trigger.isAccount = false) {t t' : Thread} (ht : w.threadAt a.thread = some t)
    (ht' : w'.threadAt a.thread = some t') :
    ∃ w'' t'', threadUpdate e ⟨t.authority, a.thread, p, some trigger, a.clock⟩ w = .ok w'' ∧
      w''.threadAt a.thread = some t'' ∧
      (SameFrom e.toHost a.thread t' t'' ↔ t.trigger.isTimestamp = false ∨ p.isSome) ∧
      (0 ≤ a.clock.unixTimestamp → ∀ slot timestamp, a.clock.unixTimestamp ≤ timestamp →
        t'.isReady slot timestamp = t''.isReady slot timestamp) := by
  obtain ⟨x⟩ := threadExec_fiber hexec
  obtain rfl : x.thread = t := Option.some.inj (x.stored.symm.trans ht)
  obtain rfl := x.eq_finished ht'
  obtain ⟨t'', hupdated, htrigger, hcreated, hpaused, hpaused', hschedule⟩ :=
    x.changed haccount (u := ⟨x.thread.authority, a.thread, p, some trigger, a.clock⟩) rfl rfl rfl rfl
  obtain ⟨w'', hupdate, hstored⟩ := threadUpdate_succeeds x.stored x.address rfl hupdated
  have htrig : x.finished.trigger = trigger := by
    rw [x.finished_trigger]
    rfl
  have hready : ∀ clock remaining, validateTrigger e.toHost x.finished clock remaining a.thread =
      validateTrigger e.toHost t'' clock remaining a.thread := by
    intro clock remaining
    refine validateTrigger_eq htrigger hcreated (hschedule.imp_right ?_) clock remaining a.thread
    rintro ⟨himmediate, hs, hs'⟩
    exact ⟨(congrArg Trigger.isImmediate htrig).trans himmediate, _, _, _, hs, hs'⟩
  refine ⟨w'', t'', hupdate, hstored, ?_, fun hnow slot timestamp hlater =>
    isReady_iff_of_changed hnow htrigger (hschedule.imp_right And.right) hlater⟩
  constructor
  · intro hsame
    have hp := hsame.paused
    rw [hpaused, hpaused'] at hp
    by_cases hts : x.thread.trigger.isTimestamp = true
    · right
      cases p with
      | none => simp [hts] at hp
      | some b => rfl
    · exact Or.inl (Bool.eq_false_of_not_eq_true hts)
  · intro hcond
    refine ⟨htrigger, ?_, fun clock remaining => by rw [hready]⟩
    rw [hpaused, hpaused', if_neg]
    rintro ⟨hts, rfl⟩
    rcases hcond with hfalse | hsome
    · exact absurd (hts.symm.trans hfalse) (by simp)
    · exact absurd hsome (by simp)

set_option maxRecDepth 20000 in
/-- Slot 60 becomes the trigger of a timestamp thread and of an interval thread. -/
theorem changes_evaluated :
    (fireOnce (.timestamp 60 0) 0 (.update none (some (.slot 60)) none)).map (fun r => (r.2.2,
      (r.1.threadAt 1).map Thread.trigger, (r.2.1.threadAt 1).map fun t => (t.trigger, t.paused))) =
        .ok (.fiber (.update none (some (.slot 60)) none), some (.timestamp 60 0),
          some (.slot 60, true)) ∧
    (fireOnce (.interval 10 false 0) 0 (.update none (some (.slot 60)) none)).map (fun r => (r.2.2,
      (r.1.threadAt 1).map Thread.trigger, (r.2.1.threadAt 1).map fun t => (t.trigger, t.paused))) =
        .ok (.fiber (.update none (some (.slot 60)) none), some (.interval 10 false 0),
          some (.slot 60, false)) := by
  decide +kernel

theorem fireOnce_changed {fired trigger : Trigger} {s : Signal} {paused : Bool}
    (h : (fireOnce fired 0 s).map (fun r => (r.2.2, (r.1.threadAt 1).map Thread.trigger,
      (r.2.1.threadAt 1).map fun t => (t.trigger, t.paused))) =
        .ok (.fiber s, some fired, some (trigger, paused))) :
    ∃ w w' t t', Reachable sampleEnv 1 w ∧
      threadExec sampleEnv (memoCpi s) (sampleArgs 0) w = .ok (w', .fiber s) ∧
      w.threadAt 1 = some t ∧ t.trigger = fired ∧ w'.threadAt 1 = some t' ∧
      t'.trigger = trigger ∧ t'.paused = paused := by
  simp only [map_eq_ok, Prod.exists, Prod.mk.injEq] at h
  obtain ⟨w, w', o, hfire, rfl, hbefore, hafter⟩ := h
  obtain ⟨hr, hexec⟩ := fireOnce_eq_ok hfire
  obtain ⟨t, ht, hfired⟩ := Option.map_eq_some_iff.mp hbefore
  obtain ⟨t', ht', hfields⟩ := Option.map_eq_some_iff.mp hafter
  obtain ⟨htrigger, hpaused⟩ := Prod.mk.inj hfields
  exact ⟨w, w', t, t', hr, hexec, ht, hfired, ht', htrigger, hpaused⟩

/-- A timestamp thread whose fiber changes the trigger is paused; the instruction leaves it
running. -/
theorem timestamp_change_pauses :
    ∃ w w' w'' t t' t'', Reachable sampleEnv 1 w ∧
      threadExec sampleEnv (memoCpi (.update none (some (.slot 60)) none)) (sampleArgs 0) w =
        .ok (w', .fiber (.update none (some (.slot 60)) none)) ∧
      w.threadAt 1 = some t ∧ t.trigger = .timestamp 60 0 ∧ w'.threadAt 1 = some t' ∧
      threadUpdate sampleEnv ⟨t.authority, 1, none, some (.slot 60), (sampleArgs 0).clock⟩ w =
        .ok w'' ∧
      w''.threadAt 1 = some t'' ∧ ¬ SameFrom sampleEnv.toHost 1 t' t'' := by
  obtain ⟨w, w', t, t', hr, hexec, ht, htrigger, ht', -, hpaused⟩ :=
    fireOnce_changed changes_evaluated.1
  obtain ⟨x⟩ := threadExec_fiber hexec
  obtain rfl : x.thread = t := Option.some.inj (x.stored.symm.trans ht)
  obtain ⟨t'', hupdated, -, -, hrunning, -⟩ := x.changed rfl
    (u := ⟨x.thread.authority, 1, none, some (.slot 60), (sampleArgs 0).clock⟩) rfl rfl rfl rfl
  obtain ⟨w'', hupdate, hstored⟩ := threadUpdate_succeeds x.stored x.address rfl hupdated
  refine ⟨w, w', w'', x.thread, t', t'', hr, hexec, ht, htrigger, ht', hupdate, hstored,
    fun hsame => ?_⟩
  have hp := hsame.paused
  rw [hpaused, hrunning] at hp
  exact absurd hp (by simp)

theorem interval_change_agrees :
    ∃ w w' w'' t t' t'',
      threadExec sampleEnv (memoCpi (.update none (some (.slot 60)) none)) (sampleArgs 0) w =
        .ok (w', .fiber (.update none (some (.slot 60)) none)) ∧
      w.threadAt 1 = some t ∧ w'.threadAt 1 = some t' ∧ t'.trigger = .slot 60 ∧
      threadUpdate sampleEnv ⟨t.authority, 1, none, some (.slot 60), (sampleArgs 0).clock⟩ w =
        .ok w'' ∧
      w''.threadAt 1 = some t'' ∧ SameFrom sampleEnv.toHost 1 t' t'' := by
  obtain ⟨w, w', t, t', -, hexec, ht, htrigger, ht', hchanged, -⟩ :=
    fireOnce_changed changes_evaluated.2
  obtain ⟨w'', t'', hupdate, hstored, hagree, -⟩ := trigger_changes_agree_iff hexec rfl ht ht'
  exact ⟨w, w', w'', t, t', t'', hexec, ht, ht', hchanged, hupdate, hstored,
    hagree.mpr (Or.inl (by rw [htrigger]; rfl))⟩

end ThreadProgram

end Antegen
