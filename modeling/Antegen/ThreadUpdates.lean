import Antegen.StagingActor

/-!
# Updates of tracked threads

An update of a thread is to be found in what staging tracks and, unless the thread is
paused, in a queue. Updates that repeat what is known are skipped, but what is compared
is only the count of executions and the schedule. A change of the pause alone, in either
direction, is therefore missed, and so is a repetition for a thread whose entry has been
used up.
-/
namespace Antegen.Client

open Transition Staging

/-- Every trigger but that on an account has a moment. -/
def HasMoment (t : Thread) : Prop := ∀ address offset size, t.trigger ≠ .account address offset size

theorem hasMoment_iff (k : Pubkey) (t : Thread) :
    HasMoment t ↔ Staging.scheduleThread k t ≠ .unsupported := by
  unfold HasMoment Staging.scheduleThread
  cases t.trigger <;> cases t.schedule <;> simp

namespace StagingState

variable {Q : Type} [MinHeap Q ScheduledThread.triggerValue]

/-- An unpaused thread with a moment has been handed over, or a queue has an entry for it with
its count of executions and its moment. -/
def Awaited (s : StagingState Q) (k : Pubkey) (t : Thread) : Prop :=
  t.paused = false → HasMoment t → k ∈ s.queuedThreads ∨
    ∃ q entry q', Staging.scheduleThread k t = .pushed q entry ∧ s.Holds q' entry

/-- What staging knows of the thread is what the update says. -/
def Reflects (s : StagingState Q) (k : Pubkey) (t : Thread) : Prop :=
  s.trackedThreads k = some (.ofThread t) ∧ s.Awaited k t

/-- The update says something new, for a schedule that belongs to its trigger; or it repeats
what is tracked, including the pause, of a thread that is still awaited. -/
def TakesIn (s : StagingState Q) (k : Pubkey) (t : Thread) : Prop :=
  if s.Unchanged k t then s.trackedThreads k = some (.ofThread t) ∧ s.Awaited k t
  else t.paused = true ∨ Staging.scheduleThread k t ≠ .mismatched ∨
    (k ∈ s.queuedThreads ∧ ¬ s.Cancels k t)

/-- Tracking a thread records the update; a queue gets an entry if the schedule allows. -/
theorem track_reflects_iff (s : StagingState Q) (k : Pubkey) (t : Thread) :
    (s.track k t).Reflects k t ↔ t.paused = true ∨
      Staging.scheduleThread k t ≠ .mismatched ∨ k ∈ s.queuedThreads := by
  have htracked : (s.track k t).trackedThreads k = some (.ofThread t) := by simp
  unfold Reflects Awaited
  simp only [htracked, true_and, track_queuedThreads, hasMoment_iff k t, track_holds]
  cases hpaused : t.paused with
  | true => simp
  | false =>
    cases hscheduled : Staging.scheduleThread k t with
    | pushed q entry => simp
    | mismatched => simp
    | unsupported => simp

theorem updateThread_reflects_iff (accepts : Pubkey → Bool) (s : StagingState Q)
    (k : Pubkey) (t : Thread) :
    (s.updateThread accepts k t).1.Reflects k t ↔ s.TakesIn k t := by
  unfold TakesIn
  rcases updateThread_cases accepts s k t with ⟨hunchanged, heq⟩ | ⟨hunchanged, hcancels, heq⟩ |
    ⟨hunchanged, hcancels, heq⟩
  · rw [heq, if_pos hunchanged]
    rfl
  · rw [heq, if_neg hunchanged, track_reflects_iff]
    simp [hcancels]
  · rw [heq, if_neg hunchanged, track_reflects_iff]
    simp [hcancels]

end StagingState

/-- The event is an update of a thread. -/
def StagingEvent.Updates {e : CacheEnv} (ev : StagingEvent e) (update : AccountUpdate)
    (t : Thread) : Prop :=
  (∃ rpc accepts, ev = .message rpc accepts (.accountUpdate update)) ∧
    classifyAccount e update.data update.pubkey = .thread t

namespace StagingActor

variable {e : CacheEnv} {Q : Type} [MinHeap Q ScheduledThread.triggerValue]

/-- The update is at least as recent as all earlier ones for its thread. -/
def Recent (before : List (StagingEvent e)) (update : AccountUpdate) : Prop :=
  ∀ rpc accepts earlier, .message rpc accepts (.accountUpdate earlier) ∈ before →
    earlier.pubkey = update.pubkey → earlier.slot ≤ update.slot

/-- After every recent update in a sequence of events, staging reflects the update. -/
def ReflectsUpdates (Q : Type) [MinHeap Q ScheduledThread.triggerValue] (cache : AccountCache e)
    (events : List (StagingEvent e)) : Prop :=
  ∀ before ev after (a b : StagingActor e Q) update t, events = before ++ ev :: after →
    Run Step (start cache) before a → ev.Updates update t → Recent before update →
    Step a ev b → b.state.Reflects update.pubkey t

/-- Every recent update in a sequence of events is one that staging takes in. -/
def TakesInUpdates (Q : Type) [MinHeap Q ScheduledThread.triggerValue] (cache : AccountCache e)
    (events : List (StagingEvent e)) : Prop :=
  ∀ before ev after (a : StagingActor e Q) update t, events = before ++ ev :: after →
    Run Step (start cache) before a → ev.Updates update t → Recent before update →
    a.state.TakesIn update.pubkey t

/-- The step lemma: an update of a thread is always handled. -/
theorem step_update (a : StagingActor e Q) {ev : StagingEvent e} {update : AccountUpdate}
    {t : Thread} (h : ev.Updates update t) : ∃ accepts, ∀ b, Step a ev b ↔
      b = { a with state := (a.state.updateThread accepts update.pubkey t).1 } := by
  obtain ⟨⟨rpc, accepts, rfl⟩, hthread⟩ := h
  have hhandled : a.step (.message rpc accepts (.accountUpdate update)) =
      some ({ a with state := (a.state.updateThread accepts update.pubkey t).1 },
        (a.state.updateThread accepts update.pubkey t).2) := by
    simp only [step, handle, StagingState.handleAccountUpdate, hthread]
  refine ⟨accepts, fun b => ?_⟩
  simp only [Step, hhandled, Option.some.injEq, Prod.mk.injEq]
  constructor
  · rintro ⟨effects, rfl, -⟩
    rfl
  · rintro rfl
    exact ⟨_, rfl, rfl⟩

/-- For every sequence of events and every implementation of the queues: staging reflects
every recent update if and only if it takes in every recent update. -/
theorem reflects_updates_iff (cache : AccountCache e) (events : List (StagingEvent e)) :
    ReflectsUpdates Q cache events ↔ TakesInUpdates Q cache events := by
  constructor
  · intro h before ev after a update t hevents hrun hupdates hrecent
    obtain ⟨accepts, hstep⟩ := step_update a hupdates
    rw [← StagingState.updateThread_reflects_iff accepts]
    exact h before ev after a _ update t hevents hrun hupdates hrecent ((hstep _).mpr rfl)
  · intro h before ev after a b update t hevents hrun hupdates hrecent hb
    obtain ⟨accepts, hstep⟩ := step_update a hupdates
    rw [(hstep b).mp hb]
    exact (StagingState.updateThread_reflects_iff accepts a.state update.pubkey t).mpr
      (h before ev after a update t hevents hrun hupdates hrecent)

/-- Thread 1 is found while it is paused, and is then unpaused. -/
def unpausing : List (StagingEvent stagingEnv) :=
  [sampleMessage (.accountUpdate (sampleUpdate 1 0 0 10 1 1)),
    sampleMessage (.accountUpdate (sampleUpdate 1 0 0 10 0 2))]

theorem unpausing_recent : Recent [sampleMessage (.accountUpdate (sampleUpdate 1 0 0 10 1 1))]
    (sampleUpdate 1 0 0 10 0 2) := by
  intro rpc accepts earlier hearlier _
  simp only [List.mem_singleton, sampleMessage, StagingEvent.message.injEq,
    StagingMessage.accountUpdate.injEq] at hearlier
  rw [hearlier.2.2]
  decide

/-- The thread stays paused for staging and is never scheduled. -/
theorem unpausing_is_missed :
    (∃ a : StagingActor stagingEnv SampleQueue, Run Step (start fun _ => none) unpausing a ∧
      (a.state.trackedThreads 1).map TrackedThread.paused = some true ∧
      ∀ q, MinHeap.drain (a.state.queue q) = []) ∧
    ¬ ReflectsUpdates SampleQueue (e := stagingEnv) (fun _ => none) unpausing := by
  have hrun : ∃ a b : StagingActor stagingEnv SampleQueue,
      Run Step (start fun _ => none)
        [sampleMessage (.accountUpdate (sampleUpdate 1 0 0 10 1 1))] a ∧
      Step a (sampleMessage (.accountUpdate (sampleUpdate 1 0 0 10 0 2))) b ∧
      (b.state.trackedThreads 1).map TrackedThread.paused = some true ∧
      ∀ q, MinHeap.drain (b.state.queue q) = [] := by
    refine ⟨_, _, Run.cons ⟨_, rfl⟩ (Run.nil _), ⟨_, rfl⟩, by decide +kernel, fun q => ?_⟩
    cases q <;> decide +kernel
  obtain ⟨a, b, hbefore, hstep, hpaused, hempty⟩ := hrun
  refine ⟨⟨b, hbefore.append (Run.cons hstep (Run.nil b)), hpaused, hempty⟩, fun h => ?_⟩
  obtain ⟨t, ht, hunpaused⟩ : ∃ t, classifyAccount stagingEnv
      (sampleUpdate 1 0 0 10 0 2).data 1 = .thread t ∧ t.paused = false :=
    ⟨_, rfl, by decide⟩
  have hreflects := h _ _ [] a b (sampleUpdate 1 0 0 10 0 2) t rfl hbefore
    ⟨⟨_, _, rfl⟩, ht⟩ unpausing_recent hstep
  have htracked : b.state.trackedThreads 1 = some (.ofThread t) := hreflects.1
  rw [htracked] at hpaused
  exact absurd hpaused (by simp [TrackedThread.ofThread, hunpaused])

end StagingActor

end Antegen.Client
