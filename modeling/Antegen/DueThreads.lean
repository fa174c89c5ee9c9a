import Antegen.StagingActor

/-!
# Dispatch of due threads

A thread is handed over when an entry of its count of executions is due. Its schedule is
what staging tracks, and the entry was made from the schedule of that time. The two part
when the schedule of a thread changes without an execution: the old entry keeps the count
and is still good. As long as no thread is tracked beside an entry of its count that it
was not scheduled under itself, every entry that counts is the one of the tracked
schedule, and only due threads are dispatched.
-/
namespace Antegen.Client

open Transition Staging

/-- The moment of the schedule has come. -/
def DueAt (t : Thread) (clock : Clock) : Prop :=
  match t.schedule, t.trigger with
  | .timed _ next, _ => next ≤ clock.unixTimestamp
  | .block _ next, .slot _ => next ≤ clock.slot
  | .block _ next, .epoch _ => next ≤ clock.epoch
  | _, _ => False

/-- A due entry of a thread means that the thread is due, once the clock has passed 1970. -/
theorem dueAt_of_pushed {k : Pubkey} {t : Thread} {q : QueueType} {x : ScheduledThread}
    {clock : Clock} (h : Staging.scheduleThread k t = .pushed q x)
    (hdue : x.due (currentValue clock q) = true) (htime : 0 ≤ clock.unixTimestamp) :
    DueAt t clock := by
  have hle : x.triggerValue ≤ currentValue clock q := of_decide_eq_true hdue
  unfold Staging.scheduleThread at h
  unfold DueAt
  cases htrigger : t.trigger <;> cases hschedule : t.schedule <;>
    simp only [htrigger, hschedule, Scheduled.pushed.injEq, reduceCtorEq] at h ⊢ <;>
    obtain ⟨rfl, rfl⟩ := h <;>
    simp only [currentValue] at hle <;>
    omega

/-- What the tracked threads were taken from. -/
def Effect.note (source : Pubkey → Option Thread) : Effect → Pubkey → Option Thread
  | .sent _ => source
  | .tracks k t => Function.update source k (some t)
  | .untracks k => Function.update source k none

namespace StagingState

variable {Q : Type} [MinHeap Q ScheduledThread.triggerValue]

/-- Every entry of the thread with its count of executions is the one it is scheduled under. -/
def Agrees (s : StagingState Q) (k : Pubkey) (t : Thread) : Prop :=
  ∀ q x, s.Holds q x → x.threadPubkey = k → x.execCount = t.execCount →
    Staging.scheduleThread k t = .pushed q x

/-- What is tracked comes from the source, and agrees with it. -/
structure Aligned (s : StagingState Q) (source : Pubkey → Option Thread) : Prop where
  tracked : ∀ k, s.trackedThreads k = (source k).map .ofThread
  agrees : ∀ k t, source k = some t → s.Agrees k t

theorem Aligned.of_subset {s s' : StagingState Q} {source : Pubkey → Option Thread}
    (h : s.Aligned source) (htracked : s'.trackedThreads = s.trackedThreads)
    (hsubset : ∀ q x, s'.Holds q x → s.Holds q x) : s'.Aligned source := by
  constructor
  · rw [htracked]
    exact h.tracked
  · intro k t ht q x hholds
    exact h.agrees k t ht q x (hsubset q x hholds)

theorem Aligned.track {s : StagingState Q} {source : Pubkey → Option Thread}
    (h : s.Aligned source) {k : Pubkey} {t : Thread} (hagrees : s.Agrees k t) :
    (s.track k t).Aligned (Function.update source k (some t)) := by
  constructor
  · intro k'
    rw [track_trackedThreads]
    by_cases hk : k' = k
    · rw [hk, Function.update_self, Function.update_self]
      rfl
    · rw [Function.update_of_ne hk, Function.update_of_ne hk]
      exact h.tracked k'
  · intro k' t' ht' q x hholds hkey hcount
    rw [track_holds] at hholds
    by_cases hk : k' = k
    · rw [hk, Function.update_self] at ht'
      obtain rfl := Option.some.inj ht'
      rw [hk] at hkey ⊢
      rcases hholds with hheld | ⟨-, hpushed⟩
      · exact hagrees q x hheld hkey hcount
      · exact hpushed
    · rw [Function.update_of_ne hk] at ht'
      rcases hholds with hheld | ⟨-, hpushed⟩
      · exact h.agrees k' t' ht' q x hheld hkey hcount
      · exact absurd (hkey.symm.trans (scheduleThread_pushed hpushed).1) hk

theorem Aligned.untrack {s : StagingState Q} {source : Pubkey → Option Thread}
    (h : s.Aligned source) (k : Pubkey) :
    (s.untrack k).Aligned (Function.update source k none) := by
  constructor
  · intro k'
    show Function.update s.trackedThreads k none k' = _
    by_cases hk : k' = k
    · rw [hk, Function.update_self, Function.update_self]
      rfl
    · rw [Function.update_of_ne hk, Function.update_of_ne hk]
      exact h.tracked k'
  · intro k' t' ht'
    by_cases hk : k' = k
    · rw [hk, Function.update_self] at ht'
      exact absurd ht' (by simp)
    · rw [Function.update_of_ne hk] at ht'
      exact h.agrees k' t' ht'

/-- With aligned entries a ready thread is due. -/
theorem Aligned.dueAt {s : StagingState Q} {source : Pubkey → Option Thread}
    (h : s.Aligned source) {clock : Clock} (htime : 0 ≤ clock.unixTimestamp) {k : Pubkey}
    (hready : s.Ready clock k) : ∃ t, source k = some t ∧ DueAt t clock := by
  obtain ⟨q, x, hholds, hdue, rfl, tracked, htracked, -, hcount⟩ := hready
  rw [h.tracked] at htracked
  obtain ⟨t, ht, rfl⟩ := Option.map_eq_some_iff.mp htracked
  exact ⟨t, ht, dueAt_of_pushed (h.agrees _ t ht q x hholds rfl hcount) hdue htime⟩

end StagingState

/-! ## Runs with their sources -/

/-- The actor, and for each tracked thread the data it was taken from. -/
structure Traced (e : CacheEnv) (Q : Type) where
  actor : StagingActor e Q
  source : Pubkey → Option Thread

namespace Traced

variable {e : CacheEnv} {Q : Type} [MinHeap Q ScheduledThread.triggerValue]

def start (cache : AccountCache e) : Traced e Q := ⟨StagingActor.start cache, fun _ => none⟩

def Step (u : Traced e Q) (ev : StagingEvent e) (v : Traced e Q) : Prop :=
  ∃ effects, u.actor.step ev = some (v.actor, effects) ∧
    v.source = effects.foldl Effect.note u.source

/-- Every thread handed over in a tick is due by the schedule that is tracked for it. -/
def DispatchesDue (u : Traced e Q) (ev : StagingEvent e) (v : Traced e Q) : Prop :=
  ∀ rpc accepts clock effects ready, ev = .message rpc accepts (.clockTick clock) →
    u.actor.step ev = some (v.actor, effects) → .sent (.processReady ready) ∈ effects →
    ∃ t, v.source ready.threadPubkey = some t ∧
      v.actor.state.trackedThreads ready.threadPubkey = some (.ofThread t) ∧ DueAt t clock

/-- Nothing is handed over outside ticks. -/
theorem dispatchesDue_of_ne {u v : Traced e Q} {ev : StagingEvent e}
    (h : ∀ rpc accepts clock, ev ≠ .message rpc accepts (.clockTick clock)) :
    DispatchesDue u ev v :=
  fun rpc accepts clock _ _ hev => absurd hev (h rpc accepts clock)

/-- Every refetched thread agrees with the entries that are there when it is fetched. -/
def RefetchesAgree (rpc : ℕ → AccountCache.Rpc) : ℕ → StagingActor e Q → Prop
  | 0, _ => True
  | n + 1, a =>
    match a.evictions with
    | [] => True
    | k :: rest =>
      (∀ t, (a.cache.getThreadOrFetch (rpc n) k).1 = .ok t → a.state.Agrees k t) ∧
        RefetchesAgree rpc n ({ a with evictions := rest }.refetch (rpc n) k).1

/-- A thread is tracked, refetched or scheduled again only if it agrees with the entries of
its count of executions, and the time of a tick is not negative. -/
def Agreeable (u : Traced e Q) : StagingEvent e → Prop
  | .message _ _ (.accountUpdate update) =>
    ∀ t, classifyAccount e update.data update.pubkey = .thread t →
      u.actor.state.Unchanged update.pubkey t ∨ u.actor.state.Agrees update.pubkey t
  | .message rpc _ (.clockTick clock) =>
    0 ≤ clock.unixTimestamp ∧
      RefetchesAgree rpc StagingActor.maxEvictionsPerTick (u.actor.startTick clock)
  | .message _ _ (.threadCompleted k .skipped) =>
    ∀ cached t q x, u.actor.cachedThread k = some cached → u.source k = some t →
      cached.execCount = t.execCount → Staging.scheduleThread k cached = .pushed q x →
      Staging.scheduleThread k t = .pushed q x
  | _ => True

theorem aligned_processEvictions {rpc : ℕ → AccountCache.Rpc} {n : ℕ} {a : StagingActor e Q}
    {source : Pubkey → Option Thread} (h : a.state.Aligned source)
    (hagree : RefetchesAgree rpc n a) :
    (a.processEvictions rpc n).1.state.Aligned
      ((a.processEvictions rpc n).2.foldl Effect.note source) := by
  induction n generalizing a source with
  | zero => exact h
  | succ n ih =>
    unfold StagingActor.processEvictions
    unfold RefetchesAgree at hagree
    cases hevictions : a.evictions with
    | nil => exact h
    | cons k rest =>
      rw [hevictions] at hagree
      dsimp only at hagree ⊢
      rw [List.foldl_append]
      obtain ⟨hfirst, hrest⟩ := hagree
      refine ih ?_ hrest
      rcases StagingActor.refetch_cases (rpc n) { a with evictions := rest } k with
        ⟨t, hok, heq⟩ | ⟨err, -, heq⟩
      · rw [heq]
        exact h.track (hfirst t hok)
      · rw [heq]
        exact h.untrack k

theorem foldl_note_sent (source : Pubkey → Option Thread) (ready : List ReadyThread) :
    (ready.map fun r => Effect.sent (.processReady r)).foldl Effect.note source = source := by
  induction ready with
  | nil => rfl
  | cons r ready ih => exact ih

/-- The step lemma for a tick. -/
theorem aligned_tick {u : Traced e Q} (h : u.actor.state.Aligned u.source)
    {rpc : ℕ → AccountCache.Rpc} {accepts : Pubkey → Bool} {clock : Clock}
    (hagreeable : u.Agreeable (.message rpc accepts (.clockTick clock))) :
    let ticked := u.actor.handleClockTick rpc accepts clock
    ticked.1.state.Aligned (ticked.2.foldl Effect.note u.source) ∧
      ∀ ready, .sent (.processReady ready) ∈ ticked.2 →
        ∃ t, ticked.2.foldl Effect.note u.source ready.threadPubkey = some t ∧ DueAt t clock := by
  intro ticked
  rcases le_or_gt clock.slot u.actor.state.lastProcessedSlot with hstale | hfresh
  · have heq : ticked = (u.actor, []) := StagingActor.handleClockTick_of_le rpc accepts hstale
    rw [heq]
    exact ⟨h, by simp⟩
  · have heq : ticked = _ := StagingActor.handleClockTick_of_lt rpc accepts hfresh
    have hstart : (u.actor.startTick clock).state.Aligned u.source :=
      h.of_subset (u.actor.startTick_trackedThreads clock) fun q x =>
        (u.actor.startTick_holds clock q x).1
    have hprepared := aligned_processEvictions hstart hagreeable.2
    rw [heq, List.foldl_append, foldl_note_sent]
    refine ⟨hprepared.of_subset rfl fun q x hx => ?_, fun ready hready => ?_⟩
    · exact ((StagingState.checked_holds accepts _ clock q x).mp hx).1
    · rcases List.mem_append.mp hready with hsent | hsent
      · exact absurd hsent (StagingActor.sent_notMem_processEvictions rpc _ _ _)
      · obtain ⟨r, hr, hreq⟩ := List.mem_map.mp hsent
        obtain rfl : r = ready := by simpa using hreq
        have hover := (StagingState.mem_handedOver accepts _ clock r.threadPubkey).mp
          (List.mem_map_of_mem hr)
        exact hprepared.dueAt hagreeable.1 hover.1

theorem aligned_update {s : StagingState Q} {source : Pubkey → Option Thread}
    (h : s.Aligned source) {accepts : Pubkey → Bool} {update : AccountUpdate}
    (hagrees : ∀ t, classifyAccount e update.data update.pubkey = .thread t →
      s.Unchanged update.pubkey t ∨ s.Agrees update.pubkey t) :
    (s.handleAccountUpdate e accepts update).1.Aligned
      ((s.handleAccountUpdate e accepts update).2.foldl Effect.note source) := by
  unfold StagingState.handleAccountUpdate
  cases hclass : classifyAccount e update.data update.pubkey with
  | clock => exact h
  | other => exact h
  | deleted => exact h.untrack update.pubkey
  | thread t =>
    dsimp only
    rcases StagingState.updateThread_cases accepts s update.pubkey t with ⟨-, heq⟩ |
      ⟨hchanged, -, heq⟩ | ⟨hchanged, -, heq⟩
    · rw [heq]
      exact h
    · have hcancelled : StagingState.Aligned
          { s with queuedThreads := s.queuedThreads.erase update.pubkey } source :=
        h.of_subset rfl fun _ _ => id
      have htracked := hcancelled.track ((hagrees t hclass).resolve_left hchanged)
      rw [heq]
      split_ifs
      · exact htracked
      · exact htracked
    · rw [heq]
      exact h.track ((hagrees t hclass).resolve_left hchanged)

theorem aligned_threadCompleted {u : Traced e Q} (h : u.actor.state.Aligned u.source)
    {rpc : ℕ → AccountCache.Rpc} {accepts : Pubkey → Bool} {k : Pubkey}
    {reason : CompletionReason}
    (hagreeable : u.Agreeable (.message rpc accepts (.threadCompleted k reason))) :
    (u.actor.threadCompleted k reason).state.Aligned u.source := by
  have herased : StagingState.Aligned
      { u.actor.state with queuedThreads := u.actor.state.queuedThreads.erase k } u.source :=
    h.of_subset rfl fun _ _ => id
  unfold StagingActor.threadCompleted
  cases reason with
  | executed => exact herased
  | skipped =>
    cases hcached : u.actor.cachedThread k with
    | none => exact herased
    | some cached =>
      constructor
      · exact fun k' => (congrFun (StagingState.scheduleThread_trackedThreads _ k cached) k').trans
          (h.tracked k')
      · intro k' t ht q x hholds hkey hcount
        rcases (StagingState.scheduleThread_holds _ k cached q x).mp hholds with hheld | hpushed
        · exact h.agrees k' t ht q x hheld hkey hcount
        · obtain ⟨hkey', hcount'⟩ := StagingState.scheduleThread_pushed hpushed
          obtain rfl : k = k' := hkey'.symm.trans hkey
          exact hagreeable cached t q x hcached ht (hcount'.symm.trans hcount) hpushed

/-- The step lemma. -/
theorem aligned_step {u v : Traced e Q} {ev : StagingEvent e} (h : u.actor.state.Aligned u.source)
    (hstep : Guarded Step Agreeable u ev v) :
    v.actor.state.Aligned v.source ∧ Step u ev v ∧ DispatchesDue u ev v := by
  obtain ⟨hagreeable, hstep⟩ := hstep
  have hstep' := hstep
  obtain ⟨effects, hactor, hsource⟩ := hstep
  cases ev with
  | elsewhere cache expired =>
    obtain ⟨hv, rfl⟩ := Prod.mk.inj (Option.some.inj hactor)
    refine ⟨?_, hstep', dispatchesDue_of_ne (by simp)⟩
    rw [hsource, ← hv]
    exact h
  | message rpc accepts message =>
    cases message with
    | shutdown => exact absurd hactor (by simp [StagingActor.step, StagingActor.handle])
    | accountUpdate update =>
      obtain ⟨hv, rfl⟩ := Prod.mk.inj (Option.some.inj hactor)
      refine ⟨?_, hstep', dispatchesDue_of_ne (by simp)⟩
      rw [hsource, ← hv]
      exact aligned_update h hagreeable
    | threadCompleted k reason =>
      obtain ⟨hv, rfl⟩ := Prod.mk.inj (Option.some.inj hactor)
      refine ⟨?_, hstep', dispatchesDue_of_ne (by simp)⟩
      rw [hsource, ← hv]
      exact aligned_threadCompleted h hagreeable
    | setProcessorRef =>
      obtain ⟨hv, rfl⟩ := Prod.mk.inj (Option.some.inj hactor)
      refine ⟨?_, hstep', dispatchesDue_of_ne (by simp)⟩
      rw [hsource, ← hv]
      exact h.of_subset rfl fun _ _ => id
    | queryStatus =>
      obtain ⟨hv, rfl⟩ := Prod.mk.inj (Option.some.inj hactor)
      refine ⟨?_, hstep', dispatchesDue_of_ne (by simp)⟩
      rw [hsource, ← hv]
      exact h
    | clockTick clock =>
      have hticked : u.actor.handleClockTick rpc accepts clock = (v.actor, effects) :=
        Option.some.inj hactor
      have htick := aligned_tick h hagreeable
      rw [hticked] at htick
      dsimp only at htick
      rw [← hsource] at htick
      refine ⟨htick.1, hstep', fun rpc' accepts' clock' effects' ready hev hactor' hsent => ?_⟩
      obtain ⟨-, rfl⟩ := Prod.mk.inj (Option.some.inj (hactor'.symm.trans hactor))
      obtain ⟨-, -, hmessage⟩ := StagingEvent.message.inj hev
      obtain rfl := StagingMessage.clockTick.inj hmessage
      obtain ⟨t, ht, hdue⟩ := htick.2 ready hsent
      refine ⟨t, ht, ?_, hdue⟩
      rw [htick.1.tracked, ht]
      rfl

/-- In every run of staging whose steps all agree with the entries of the queues, every tick
hands over only threads that are due by their tracked schedule. -/
theorem dispatches_only_due {cache : AccountCache e} {events : List (StagingEvent e)}
    {u : Traced e Q} (h : Run (Guarded Step Agreeable) (start cache) events u) :
    Run (fun u ev v => Step u ev v ∧ DispatchesDue u ev v) (start cache) events u := by
  have hempty : StagingState.Aligned (Q := Q) (StagingActor.start cache).state fun _ => none := by
    constructor
    · exact fun _ => rfl
    · exact fun _ _ ht => absurd ht (by simp)
  exact h.along (fun u ev v hu hstep => aligned_step hu hstep) hempty

/-- Thread 1 is due from second 10 on, and a tick comes at second 20. -/
def sampleTick : StagingEvent stagingEnv := sampleMessage (.clockTick ⟨1, 0, 20⟩)

theorem due_thread_is_dispatched :
    ∃ u : Traced stagingEnv SampleQueue, 1 ∈ u.actor.state.queuedThreads ∧
      Run (fun u ev v => Step u ev v ∧ DispatchesDue u ev v) (start fun _ => none)
        [sampleMessage .setProcessorRef,
          sampleMessage (.accountUpdate (sampleUpdate 1 0 0 10 0 1)), sampleTick] u := by
  have hrun : ∃ u : Traced stagingEnv SampleQueue, 1 ∈ u.actor.state.queuedThreads ∧
      Run (Guarded Step Agreeable) (start fun _ => none) [sampleMessage .setProcessorRef,
        sampleMessage (.accountUpdate (sampleUpdate 1 0 0 10 0 1)), sampleTick] u := by
    refine ⟨⟨_, _⟩, ?_, Run.cons (t := ⟨_, _⟩) ⟨trivial, ⟨_, rfl, rfl⟩⟩
      (Run.cons (t := ⟨_, _⟩) ⟨fun t _ => Or.inr fun q x hx => ?_, ⟨_, rfl, rfl⟩⟩
        (Run.cons (t := ⟨_, _⟩) ⟨⟨by decide, ?_⟩, ⟨_, rfl, rfl⟩⟩ (Run.nil _)))⟩
    · decide +kernel
    · exact absurd hx (List.not_mem_nil)
    · exact trivial
  obtain ⟨u, hqueued, hguarded⟩ := hrun
  exact ⟨u, hqueued, dispatches_only_due hguarded⟩

/-- The schedule of thread 1 moves to second 50 without an execution. The tick at second 20
hands the thread over all the same. -/
theorem moved_thread_is_dispatched :
    ∃ u v : Traced stagingEnv SampleQueue, Run Step (start fun _ => none)
        [sampleMessage .setProcessorRef,
          sampleMessage (.accountUpdate (sampleUpdate 1 0 0 10 0 1)),
          sampleMessage (.accountUpdate (sampleUpdate 1 0 0 50 0 2))] u ∧
      Step u sampleTick v ∧
      v.actor.state.trackedThreads 1 = some ⟨0, .timed 0 50, false⟩ ∧
      ¬ DispatchesDue u sampleTick v := by
  refine ⟨⟨_, _⟩, ⟨_, _⟩, Run.cons (t := ⟨_, _⟩) ⟨_, rfl, rfl⟩ (Run.cons (t := ⟨_, _⟩) ⟨_, rfl, rfl⟩
    (Run.cons (t := ⟨_, _⟩) ⟨_, rfl, rfl⟩ (Run.nil _))), ⟨_, rfl, rfl⟩, by decide +kernel, ?_⟩
  intro h
  obtain ⟨t, -, htracked, hdue⟩ := h _ _ _ _ ⟨1, 0, true, 10⟩ rfl rfl (by decide +kernel)
  have hschedule : t.schedule = .timed 0 50 := by
    have heq : some (TrackedThread.ofThread t) = some ⟨0, .timed 0 50, false⟩ :=
      htracked.symm.trans (by decide +kernel)
    exact congrArg TrackedThread.schedule (Option.some.inj heq)
  simp [DueAt, hschedule] at hdue

end Traced

end Antegen.Client
