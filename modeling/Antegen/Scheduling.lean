import Antegen.Staging
import Antegen.ThreadRuns

/-!
# Triggers and their schedules

Trigger and schedule are two fields of the thread. Creation and update write both,
a chain writes neither, and the end of a firing computes a schedule for the trigger
that is then set. So the kinds of the two agree in every reachable state, and for a
timestamp or a slot the schedule repeats the trigger's own moment.
-/
namespace Antegen

/-- The kind of schedule that belongs to a trigger. -/
def Trigger.Suits : Trigger → Schedule → Prop
  | .account _ _ _, .onChange _ => True
  | .immediate _, .timed _ _ => True
  | .timestamp unixTs _, .timed _ next => next = unixTs
  | .interval _ _ _, .timed _ _ => True
  | .cron _ _ _, .timed _ _ => True
  | .slot n, .block _ next => next = n
  | .epoch n, .block _ next => next = n
  | _, _ => False

/-- The schedule is of the variant that goes with the trigger's. -/
def Trigger.SameKind : Trigger → Schedule → Prop
  | .account _ _ _, .onChange _ => True
  | .immediate _, .timed _ _ => True
  | .timestamp _ _, .timed _ _ => True
  | .interval _ _ _, .timed _ _ => True
  | .cron _ _ _, .timed _ _ => True
  | .slot _, .block _ _ => True
  | .epoch _, .block _ _ => True
  | _, _ => False

/-- `validate_trigger` gets to a branch for a schedule of another kind. -/
def Thread.Mismatched (t : Thread) : Prop :=
  match t.trigger, t.schedule with
  | .interval _ _ _, .timed _ _ => False
  | .interval _ _ _, _ => True
  | .cron _ _ _, .timed _ _ => False
  | .cron _ _ _, _ => True
  | .account _ _ _, .onChange _ => False
  | .account _ _ _, _ => True
  | _, _ => False

theorem Trigger.Suits.sameKind {trigger : Trigger} {schedule : Schedule}
    (h : trigger.Suits schedule) : trigger.SameKind schedule := by
  cases trigger <;> cases schedule <;> first | exact h.elim | trivial

theorem Trigger.SameKind.not_mismatched {t : Thread} (h : t.trigger.SameKind t.schedule) :
    ¬ t.Mismatched := by
  unfold Thread.Mismatched
  revert h
  cases t.trigger <;> cases t.schedule <;> simp [Trigger.SameKind]

/-- Only an account trigger is left without an entry. -/
theorem Trigger.SameKind.scheduleThread {t : Thread} (h : t.trigger.SameKind t.schedule)
    (thread : Pubkey) : Staging.scheduleThread thread t ≠ .mismatched := by
  unfold Staging.scheduleThread
  revert h
  cases t.trigger <;> cases t.schedule <;> simp [Trigger.SameKind]

theorem initialSchedule_suits {h : Host} {trigger : Trigger} {clock : Clock} {thread : Pubkey}
    {schedule : Schedule} (hs : initialSchedule h trigger clock thread = .ok schedule) :
    trigger.Suits schedule := by
  cases trigger with
  | cron expression skippable jitter =>
    simp only [initialSchedule, bind_eq_ok, pure_eq_ok] at hs
    obtain ⟨found, -, rfl⟩ := hs
    trivial
  | account address offset size => rw [← Except.ok.inj hs]; trivial
  | immediate jitter => rw [← Except.ok.inj hs]; trivial
  | timestamp unixTs jitter => rw [← Except.ok.inj hs]; rfl
  | interval seconds skippable jitter => rw [← Except.ok.inj hs]; trivial
  | slot slot => rw [← Except.ok.inj hs]; rfl
  | epoch epoch => rw [← Except.ok.inj hs]; rfl

theorem nextSchedule_suits {h : Host} {trigger : Trigger} {clock : Clock}
    {remaining : List AccountInfo} {thread : Pubkey} {schedule : Schedule}
    (hs : nextSchedule h trigger clock remaining thread = .ok schedule) :
    trigger.Suits schedule := by
  cases trigger with
  | cron expression skippable jitter =>
    simp only [nextSchedule, bind_eq_ok, pure_eq_ok] at hs
    obtain ⟨found, -, moment, -, rfl⟩ := hs
    trivial
  | account address offset size =>
    simp only [nextSchedule, bind_eq_ok, pure_eq_ok] at hs
    obtain ⟨info, -, slice, -, rfl⟩ := hs
    trivial
  | immediate jitter => rw [← Except.ok.inj hs]; trivial
  | timestamp unixTs jitter => rw [← Except.ok.inj hs]; rfl
  | interval seconds skippable jitter => rw [← Except.ok.inj hs]; trivial
  | slot slot => rw [← Except.ok.inj hs]; rfl
  | epoch epoch => rw [← Except.ok.inj hs]; rfl

namespace ThreadProgram

section Scheduled

variable {e : Env} {P : Pubkey → Trigger → Schedule → Prop}

/-- The step lemma for instructions: they compute a schedule by `initialSchedule` or keep it. -/
theorem scheduled_process {ix : Ix} {w w' : Ledger} {t' : Thread}
    (hinitial : ∀ {trigger clock thread schedule},
      initialSchedule e.toHost trigger clock thread = .ok schedule → P thread trigger schedule)
    (h : process e ix w = .ok w') (ht' : w'.threadAt ix.thread = some t')
    (hw : Holds ix.thread (fun t => P ix.thread t.trigger t.schedule) w) :
    P ix.thread t'.trigger t'.schedule := by
  rcases process_cases h ht' with ⟨a, bump, nonce, schedule, closeFiber, rfl, rfl, hs, -⟩ |
    ⟨a, t, rfl, ht, hu⟩ | ⟨t, ht, hframe⟩
  · exact hinitial hs
  · unfold updatedThread at hu
    simp only at hu
    split at hu
    · rw [← Except.ok.inj hu]
      exact hw t ht
    · simp only [bind_eq_ok, pure_eq_ok] at hu
      obtain ⟨schedule, hs, rfl⟩ := hu
      exact hinitial hs
  · rw [hframe]
    exact hw t ht

/-- The step lemma for executions: they compute a schedule by `nextSchedule` or keep it. -/
theorem scheduled_finished {cpi : Cpi} {a : ExecArgs} {w w' : Ledger} {s : Signal}
    (hnext : ∀ {trigger clock remaining thread schedule},
      nextSchedule e.toHost trigger clock remaining thread = .ok schedule →
        P thread trigger schedule)
    (x : Execution e cpi a w w' s) (hx : P a.thread x.thread.trigger x.thread.schedule) :
    P a.thread x.finished.trigger x.finished.schedule := by
  rcases x.finished_schedule with ⟨hs, hschedule⟩ | ⟨-, hschedule⟩
  · have hnew : s.newTrigger = none := by
      rw [hs]
      rfl
    rw [hschedule, x.finished_trigger, hnew]
    exact hx
  · exact hnext hschedule

/-- What both computations of a schedule establish for its trigger holds in every reachable
state. -/
theorem scheduled_of_reachable
    (hinitial : ∀ {trigger clock thread schedule},
      initialSchedule e.toHost trigger clock thread = .ok schedule → P thread trigger schedule)
    (hnext : ∀ {trigger clock remaining thread schedule},
      nextSchedule e.toHost trigger clock remaining thread = .ok schedule →
        P thread trigger schedule)
    {thread : Pubkey} {w : Ledger} (h : Reachable e thread w) :
    Holds thread (fun t => P thread t.trigger t.schedule) w := by
  refine h.holds (fun u ix u' t' hp hix ht' hu => ?_) fun cpi a u u' s x ha _ hx => ?_
  · subst hix
    exact scheduled_process hinitial hp ht' hu
  · subst ha
    exact scheduled_finished hnext x hx

end Scheduled

theorem suits_of_reachable {e : Env} {thread : Pubkey} {w : Ledger} (h : Reachable e thread w) :
    Holds thread (fun t => t.trigger.Suits t.schedule) w :=
  scheduled_of_reachable (P := fun _ trigger schedule => trigger.Suits schedule)
    initialSchedule_suits nextSchedule_suits h

/-- In every reachable state the schedule is of the trigger's kind, so neither
`validate_trigger` nor `schedule_thread` gets to a branch for another kind. -/
theorem schedule_in_step {e : Env} {thread : Pubkey} {w : Ledger} (h : Reachable e thread w)
    {t : Thread} (ht : w.threadAt thread = some t) :
    t.trigger.SameKind t.schedule ∧ ¬ t.Mismatched ∧
      Staging.scheduleThread thread t ≠ .mismatched := by
  have hkind := (suits_of_reachable h t ht).sameKind
  exact ⟨hkind, hkind.not_mismatched, hkind.scheduleThread thread⟩

set_option maxRecDepth 20000 in
theorem schedule_in_step_after_update :
    ∃ w t, Reachable sampleEnv 1 w ∧ w.threadAt 1 = some t ∧ t.trigger = .slot 60 ∧
      t.schedule = .block 100 60 ∧ t.trigger.SameKind t.schedule := by
  have hrun : (fireOnce (.interval 10 false 0) 0 (.update none (some (.slot 60)) none)).map
      (fun r => (r.2.1.threadAt 1).map fun t => (t.trigger, t.schedule)) =
        .ok (some (.slot 60, .block 100 60)) := by
    decide +kernel
  simp only [map_eq_ok, Prod.exists] at hrun
  obtain ⟨w, w', o, hfire, hstored⟩ := hrun
  obtain ⟨⟨w₀, events, hnone, hr⟩, hexec⟩ := fireOnce_eq_ok hfire
  obtain ⟨t, ht, hfields⟩ := Option.map_eq_some_iff.mp hstored
  obtain ⟨htrigger, hschedule⟩ := Prod.mk.inj hfields
  obtain ⟨u, -, hstep⟩ := exec_step hexec
  have hr' : Reachable sampleEnv 1 w' := ⟨w₀, _, hnone, hr.append (.cons hstep (.nil w'))⟩
  exact ⟨w', t, hr', ht, htrigger, hschedule, (schedule_in_step hr' ht).1⟩

end ThreadProgram

end Antegen
