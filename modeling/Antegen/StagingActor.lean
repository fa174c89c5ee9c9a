import Antegen.AccountCache
import Antegen.Messages
import Antegen.PriorityQueue
import Antegen.Transition

/-!
# The staging actor

The staging actor keeps the trigger data of every thread it has seen, three queues of
moments at which threads become due, and the set of threads it has handed over. A tick
of the clock takes the due entries out of the queues and sends what is ready to the
processor. Entries are never removed when a thread changes; they are recognised as stale
by their count of executions once they are due.

A message is handled in one step. What a handler does besides changing its state is
listed as effects. A handler sends at most one message about each thread; whether that
message can be sent, and what the node answers to a refetch, is decided by the
environment. The load balancer's own bookkeeping is left out.
-/
namespace Antegen.Client

open Transition Staging

/-- `solana_sdk::sysvar::clock::ID`. -/
def clockSysvar : Pubkey := 0x215b55735c6d4b9ba3b85e8bb65e1d6998635628c974c71817d5a706#256

/-- What staging keeps of a thread. -/
structure TrackedThread where
  execCount : ℕ
  schedule : Schedule
  paused : Bool
  deriving DecidableEq, Repr

def TrackedThread.ofThread (t : Thread) : TrackedThread := ⟨t.execCount, t.schedule, t.paused⟩

/-- The state of the actor, over any implementation of its queues. -/
structure StagingState (Q : Type) where
  trackedThreads : Pubkey → Option TrackedThread
  queue : QueueType → Q
  queuedThreads : Finset Pubkey
  lastProcessedSlot : ℕ
  processorRef : Bool

/-- The actor with the shared cache and the keys whose entries have expired there. -/
structure StagingActor (e : CacheEnv) (Q : Type) where
  state : StagingState Q
  cache : AccountCache e
  evictions : List Pubkey

/-- What a handler does: it sends a message, or it starts or stops to track a thread. -/
inductive Effect
  | sent (message : ProcessorMessage)
  | tracks (threadPubkey : Pubkey) (thread : Thread)
  | untracks (threadPubkey : Pubkey)
  deriving DecidableEq

inductive AccountType
  | thread (t : Thread)
  | clock
  | deleted
  | other
  deriving DecidableEq

def classifyAccount (e : CacheEnv) (data : List UInt8) (pubkey : Pubkey) : AccountType :=
  if pubkey = clockSysvar then .clock
  else if data = [] then .deleted
  else if data.length < 8 then .other
  else match e.tryDeserialize data with
    | some t => .thread t
    | none => .other

namespace StagingState

variable {Q : Type}

/-- Forget a thread; its entries stay in the queues. -/
def untrack (s : StagingState Q) (threadPubkey : Pubkey) : StagingState Q :=
  { s with
    trackedThreads := Function.update s.trackedThreads threadPubkey none
    queuedThreads := s.queuedThreads.erase threadPubkey }

/-- An update is skipped if it neither advances the count nor changes the schedule. -/
def Unchanged (s : StagingState Q) (threadPubkey : Pubkey) (t : Thread) : Prop :=
  ∃ existing, s.trackedThreads threadPubkey = some existing ∧
    t.execCount ≤ existing.execCount ∧ t.schedule = existing.schedule

/-- A dispatched thread whose schedule changes is cancelled. -/
def Cancels (s : StagingState Q) (threadPubkey : Pubkey) (t : Thread) : Prop :=
  threadPubkey ∈ s.queuedThreads ∧
    ∃ existing, s.trackedThreads threadPubkey = some existing ∧ t.schedule ≠ existing.schedule

instance (s : StagingState Q) (k : Pubkey) (t : Thread) : Decidable (s.Unchanged k t) :=
  match h : s.trackedThreads k with
  | none => .isFalse (by simp [Unchanged, h])
  | some existing => decidable_of_iff
      (t.execCount ≤ existing.execCount ∧ t.schedule = existing.schedule) (by simp [Unchanged, h])

instance (s : StagingState Q) (k : Pubkey) (t : Thread) : Decidable (s.Cancels k t) :=
  match h : s.trackedThreads k with
  | none => .isFalse (by simp [Cancels, h])
  | some existing => decidable_of_iff
      (k ∈ s.queuedThreads ∧ t.schedule ≠ existing.schedule) (by simp [Cancels, h])

/-- An entry is kept if it has the count of executions of a tracked thread. -/
def current (s : StagingState Q) (entry : ScheduledThread) : Bool :=
  match s.trackedThreads entry.threadPubkey with
  | some tracked => entry.execCount = tracked.execCount
  | none => false

/-- Hand a thread over, unless it has been handed over already or cannot be sent. -/
def dispatch (accepts : Pubkey → Bool) (s : StagingState Q) (ready : ReadyThread) :
    StagingState Q × List Effect :=
  if ready.threadPubkey ∈ s.queuedThreads then (s, [])
  else
    let marked := { s with queuedThreads := insert ready.threadPubkey s.queuedThreads }
    if s.processorRef ∧ accepts ready.threadPubkey then (marked, [.sent (.processReady ready)])
    else ({ marked with queuedThreads := marked.queuedThreads.erase ready.threadPubkey }, [])

def dispatchAll (accepts : Pubkey → Bool) (s : StagingState Q) :
    List ReadyThread → StagingState Q × List Effect
  | [] => (s, [])
  | ready :: rest =>
    let (s, sent) := s.dispatch accepts ready
    let (s, later) := dispatchAll accepts s rest
    (s, sent ++ later)

variable [MinHeap Q ScheduledThread.triggerValue]

/-- `schedule_thread`: an entry in the queue of the trigger, if its schedule allows one. -/
def scheduleThread (s : StagingState Q) (threadPubkey : Pubkey) (t : Thread) : StagingState Q :=
  match Staging.scheduleThread threadPubkey t with
  | .pushed queue entry =>
    { s with queue := Function.update s.queue queue (MinHeap.push (s.queue queue) entry) }
  | _ => s

/-- Track a thread and schedule it unless it is paused. -/
def track (s : StagingState Q) (threadPubkey : Pubkey) (t : Thread) : StagingState Q :=
  let tracked := Function.update s.trackedThreads threadPubkey (some (.ofThread t))
  let s := { s with trackedThreads := tracked }
  if t.paused then s else s.scheduleThread threadPubkey t

/-- The thread branch of `handle_account_update`. -/
def updateThread (accepts : Pubkey → Bool) (s : StagingState Q) (threadPubkey : Pubkey)
    (t : Thread) : StagingState Q × List Effect :=
  if s.Unchanged threadPubkey t then (s, [])
  else if s.Cancels threadPubkey t then
    let cancelled := { s with queuedThreads := s.queuedThreads.erase threadPubkey }
    let sent := if s.processorRef ∧ accepts threadPubkey then
      [.sent (.cancelThread threadPubkey)] else []
    (cancelled.track threadPubkey t, sent ++ [.tracks threadPubkey t])
  else (s.track threadPubkey t, [.tracks threadPubkey t])

def handleAccountUpdate (e : CacheEnv) (accepts : Pubkey → Bool) (s : StagingState Q)
    (update : AccountUpdate) : StagingState Q × List Effect :=
  match classifyAccount e update.data update.pubkey with
  | .thread t => s.updateThread accepts update.pubkey t
  | .clock => (s, [])
  | .deleted => (s.untrack update.pubkey, [.untracks update.pubkey])
  | .other => (s, [])

def compactQueues (s : StagingState Q) : StagingState Q :=
  { s with queue := fun q => MinHeap.ofList ((MinHeap.drain (s.queue q)).filter s.current) }

end StagingState

/-- What `get_ready_threads` has found so far. -/
structure Scan where
  ready : List ReadyThread
  processed : Finset Pubkey
  latestExecCount : Pubkey → Option ℕ

/-- The ready thread of an entry; only the moments of the time queue can be overdue. -/
def readyThread (queue : QueueType) (timestamp : ℤ) (entry : ScheduledThread)
    (execCount : ℕ) : ReadyThread :=
  let overdueSeconds := if queue = .timestamp then timestamp - asI64 entry.triggerValue else 0
  ⟨entry.threadPubkey, execCount, 0 < overdueSeconds, overdueSeconds⟩

/-- The body of the loop of `check_queue` for an entry that is due. -/
def Scan.consider (trackedThreads : Pubkey → Option TrackedThread) (queue : QueueType)
    (timestamp : ℤ) (c : Scan) (entry : ScheduledThread) : Scan :=
  let k := entry.threadPubkey
  if k ∈ c.processed then c
  else match trackedThreads k with
    | none => c
    | some tracked =>
      if tracked.paused then c
      else if entry.execCount ≠ tracked.execCount then c
      else if (c.latestExecCount k).any (tracked.execCount < ·) then c
      else
        { ready := c.ready ++ [readyThread queue timestamp entry tracked.execCount]
          processed := insert k c.processed
          latestExecCount := Function.update c.latestExecCount k (some tracked.execCount) }

namespace StagingState

variable {Q : Type} [MinHeap Q ScheduledThread.triggerValue]

/-- Take the due entries out of a queue and look at them one after another. -/
def checkQueue (clock : Clock) (s : StagingState Q) (c : Scan) (queue : QueueType) :
    StagingState Q × Scan :=
  let (popped, rest) := MinHeap.popDue (currentValue clock queue) (s.queue queue)
  ({ s with queue := Function.update s.queue queue rest },
    popped.foldl (Scan.consider s.trackedThreads queue clock.unixTimestamp)
      { c with latestExecCount := fun _ => none })

def getReadyThreads (s : StagingState Q) (clock : Clock) : StagingState Q × List ReadyThread :=
  let (s, c) := s.checkQueue clock ⟨[], ∅, fun _ => none⟩ .timestamp
  let (s, c) := s.checkQueue clock c .slot
  let (s, c) := s.checkQueue clock c .epoch
  (s, c.ready)

end StagingState

namespace StagingActor

variable {e : CacheEnv} {Q : Type} [MinHeap Q ScheduledThread.triggerValue]

/-- `pre_start`. -/
def start (cache : AccountCache e) : StagingActor e Q where
  state := ⟨fun _ => none, fun _ => MinHeap.empty, ∅, 0, false⟩
  cache := cache
  evictions := []

/-- Refetch a thread whose entry has left the cache. -/
def refetch (rpc : AccountCache.Rpc) (a : StagingActor e Q) (threadPubkey : Pubkey) :
    StagingActor e Q × List Effect :=
  match a.cache.getThreadOrFetch rpc threadPubkey with
  | (.ok t, cache) =>
    ({ a with state := a.state.track threadPubkey t, cache := cache }, [.tracks threadPubkey t])
  | (.error _, cache) =>
    ({ a with state := a.state.untrack threadPubkey, cache := cache }, [.untracks threadPubkey])

/-- The loop over the expired entries, at most `n` of them. -/
def processEvictions (rpc : ℕ → AccountCache.Rpc) :
    ℕ → StagingActor e Q → StagingActor e Q × List Effect
  | 0, a => (a, [])
  | n + 1, a =>
    match a.evictions with
    | [] => (a, [])
    | threadPubkey :: rest =>
      let (a, fetched) := { a with evictions := rest }.refetch (rpc n) threadPubkey
      let (a, later) := processEvictions rpc n a
      (a, fetched ++ later)

def maxEvictionsPerTick : ℕ := 10

/-- A tick up to the point where expired entries are looked at. -/
def startTick (a : StagingActor e Q) (clock : Clock) : StagingActor e Q :=
  let state := { a.state with lastProcessedSlot := clock.slot }
  { a with state := if clock.slot % 500 = 0 then state.compactQueues else state }

/-- A tick up to the point where the queues are checked. -/
def prepareTick (rpc : ℕ → AccountCache.Rpc) (a : StagingActor e Q) (clock : Clock) :
    StagingActor e Q × List Effect :=
  (a.startTick clock).processEvictions rpc maxEvictionsPerTick

def handleClockTick (rpc : ℕ → AccountCache.Rpc) (accepts : Pubkey → Bool)
    (a : StagingActor e Q) (clock : Clock) : StagingActor e Q × List Effect :=
  if clock.slot ≤ a.state.lastProcessedSlot then (a, [])
  else
    let (a, refetched) := a.prepareTick rpc clock
    let (state, ready) := a.state.getReadyThreads clock
    let (state, sent) := state.dispatchAll accepts ready
    ({ a with state := state }, refetched ++ sent)

def cachedThread (a : StagingActor e Q) (threadPubkey : Pubkey) : Option Thread :=
  (a.cache.get threadPubkey).bind fun cached => e.tryDeserialize cached.data

/-- A thread comes back. A skipped one is scheduled again as the cache has it. -/
def threadCompleted (a : StagingActor e Q) (threadPubkey : Pubkey) (reason : CompletionReason) :
    StagingActor e Q :=
  let state := { a.state with queuedThreads := a.state.queuedThreads.erase threadPubkey }
  match reason with
  | .skipped =>
    match a.cachedThread threadPubkey with
    | some t => { a with state := state.scheduleThread threadPubkey t }
    | none => { a with state := state }
  | .executed => { a with state := state }

/-- Handling of a message; on `shutdown` the actor stops. -/
def handle (rpc : ℕ → AccountCache.Rpc) (accepts : Pubkey → Bool)
    (a : StagingActor e Q) : StagingMessage → Option (StagingActor e Q × List Effect)
  | .accountUpdate update =>
    let (state, effects) := a.state.handleAccountUpdate e accepts update
    some ({ a with state := state }, effects)
  | .clockTick clock => some (a.handleClockTick rpc accepts clock)
  | .threadCompleted threadPubkey reason => some (a.threadCompleted threadPubkey reason, [])
  | .setProcessorRef => some ({ a with state := { a.state with processorRef := true } }, [])
  | .queryStatus => some (a, [])
  | .shutdown => none

end StagingActor

/-! ## Handing over -/

namespace StagingState

variable {Q : Type}

/-- The thread goes to the processor: it is not there yet and the message can be sent. -/
def HandsOver (accepts : Pubkey → Bool) (s : StagingState Q) (ready : ReadyThread) :
    Prop :=
  ready.threadPubkey ∉ s.queuedThreads ∧ s.processorRef = true ∧
    accepts ready.threadPubkey = true

instance (accepts : Pubkey → Bool) (s : StagingState Q) (ready : ReadyThread) :
    Decidable (HandsOver accepts s ready) :=
  inferInstanceAs (Decidable (_ ∧ _))

theorem dispatch_eq (accepts : Pubkey → Bool) (s : StagingState Q)
    (ready : ReadyThread) : s.dispatch accepts ready =
      if HandsOver accepts s ready then
        ({ s with queuedThreads := insert ready.threadPubkey s.queuedThreads },
          [.sent (.processReady ready)])
      else (s, []) := by
  unfold dispatch HandsOver
  by_cases hqueued : ready.threadPubkey ∈ s.queuedThreads
  · simp [hqueued]
  · simp only [hqueued, if_false, not_false_eq_true, true_and]
    split_ifs with hsent
    · rfl
    · simp [Finset.erase_insert hqueued]

/-- Distinct threads are handed over independently of each other. -/
theorem dispatchAll_eq (accepts : Pubkey → Bool) (s : StagingState Q)
    {ready : List ReadyThread} (h : (ready.map ReadyThread.threadPubkey).Nodup) :
    s.dispatchAll accepts ready =
      ({ s with queuedThreads := s.queuedThreads ∪
          ((ready.filter (HandsOver accepts s)).map ReadyThread.threadPubkey).toFinset },
        (ready.filter (HandsOver accepts s)).map fun r => .sent (.processReady r)) := by
  induction ready generalizing s with
  | nil => simp [dispatchAll]
  | cons r rest ih =>
    rw [List.map_cons, List.nodup_cons] at h
    obtain ⟨hr, hrest⟩ := h
    rw [dispatchAll, dispatch_eq]
    by_cases hover : HandsOver accepts s r
    · have hsame : rest.filter (HandsOver accepts
          { s with queuedThreads := insert r.threadPubkey s.queuedThreads }) =
          rest.filter (HandsOver accepts s) := by
        refine List.filter_congr fun r' hr' => ?_
        have hne : r'.threadPubkey ≠ r.threadPubkey := fun heq =>
          hr (heq ▸ List.mem_map_of_mem hr')
        refine decide_eq_decide.mpr ?_
        simp only [HandsOver, Finset.mem_insert, hne, false_or]
      rw [if_pos hover]
      simp only [ih _ hrest, hsame, List.filter_cons, hover, decide_true, if_true]
      simp
    · rw [if_neg hover]
      simp [ih _ hrest, hover]

end StagingState

/-! ## Entries of the queues -/

namespace StagingState

variable {Q : Type} [MinHeap Q ScheduledThread.triggerValue]

def Holds (s : StagingState Q) (queue : QueueType) (entry : ScheduledThread) : Prop :=
  entry ∈ MinHeap.drain (s.queue queue)

instance (s : StagingState Q) (queue : QueueType) (entry : ScheduledThread) :
    Decidable (s.Holds queue entry) :=
  inferInstanceAs (Decidable (entry ∈ MinHeap.drain (s.queue queue)))

theorem holds_update (s : StagingState Q) (q q' : QueueType) (h : Q) (x : ScheduledThread) :
    Holds { s with queue := Function.update s.queue q h } q' x ↔
      if q' = q then x ∈ MinHeap.drain h else s.Holds q' x := by
  show x ∈ MinHeap.drain (Function.update s.queue q h q') ↔ _
  rw [Function.update_apply]
  split_ifs <;> rfl

theorem holds_push (s : StagingState Q) (q q' : QueueType) (entry x : ScheduledThread) :
    Holds { s with queue := Function.update s.queue q (MinHeap.push (s.queue q) entry) } q' x ↔
      s.Holds q' x ∨ (q' = q ∧ x = entry) := by
  rw [holds_update, MinHeap.mem_push]
  split_ifs with hq
  · rw [hq, Holds]
    tauto
  · simp [hq]

theorem scheduleThread_holds (s : StagingState Q) (k : Pubkey) (t : Thread) (q : QueueType)
    (x : ScheduledThread) : (s.scheduleThread k t).Holds q x ↔
      s.Holds q x ∨ Staging.scheduleThread k t = .pushed q x := by
  unfold scheduleThread
  cases Staging.scheduleThread k t with
  | pushed q' entry =>
    rw [holds_push, Scheduled.pushed.injEq]
    simp [eq_comm]
  | mismatched => simp
  | unsupported => simp

/-- Scheduling changes nothing but the queues. -/
theorem scheduleThread_eq (s : StagingState Q) (k : Pubkey) (t : Thread) :
    s.scheduleThread k t = { s with queue := (s.scheduleThread k t).queue } := by
  unfold scheduleThread
  cases Staging.scheduleThread k t <;> rfl

@[simp] theorem scheduleThread_trackedThreads (s : StagingState Q) (k : Pubkey) (t : Thread) :
    (s.scheduleThread k t).trackedThreads = s.trackedThreads := by
  rw [scheduleThread_eq]

@[simp] theorem scheduleThread_queuedThreads (s : StagingState Q) (k : Pubkey) (t : Thread) :
    (s.scheduleThread k t).queuedThreads = s.queuedThreads := by
  rw [scheduleThread_eq]

@[simp] theorem scheduleThread_processorRef (s : StagingState Q) (k : Pubkey) (t : Thread) :
    (s.scheduleThread k t).processorRef = s.processorRef := by
  rw [scheduleThread_eq]

theorem track_holds (s : StagingState Q) (k : Pubkey) (t : Thread) (q : QueueType)
    (x : ScheduledThread) : (s.track k t).Holds q x ↔
      s.Holds q x ∨ (t.paused = false ∧ Staging.scheduleThread k t = .pushed q x) := by
  unfold track
  cases hpaused : t.paused with
  | true => simp [Holds]
  | false =>
    simp only [Bool.false_eq_true, if_false, true_and]
    exact scheduleThread_holds _ k t q x

@[simp] theorem track_trackedThreads (s : StagingState Q) (k : Pubkey) (t : Thread) :
    (s.track k t).trackedThreads =
      Function.update s.trackedThreads k (some (.ofThread t)) := by
  unfold track
  cases t.paused <;> simp

@[simp] theorem track_queuedThreads (s : StagingState Q) (k : Pubkey) (t : Thread) :
    (s.track k t).queuedThreads = s.queuedThreads := by
  unfold track
  cases t.paused <;> simp

@[simp] theorem track_processorRef (s : StagingState Q) (k : Pubkey) (t : Thread) :
    (s.track k t).processorRef = s.processorRef := by
  unfold track
  cases t.paused <;> simp

theorem compactQueues_holds (s : StagingState Q) (q : QueueType) (x : ScheduledThread) :
    s.compactQueues.Holds q x ↔ s.Holds q x ∧ s.current x := by
  unfold Holds compactQueues
  rw [MinHeap.mem_ofList, List.mem_filter]

/-- What an update of a thread can do. -/
theorem updateThread_cases (accepts : Pubkey → Bool) (s : StagingState Q) (k : Pubkey)
    (t : Thread) :
    (s.Unchanged k t ∧ s.updateThread accepts k t = (s, [])) ∨
    (¬ s.Unchanged k t ∧ s.Cancels k t ∧ s.updateThread accepts k t =
      ({ s with queuedThreads := s.queuedThreads.erase k }.track k t,
        (if s.processorRef ∧ accepts k then [.sent (.cancelThread k)] else []) ++
          [.tracks k t])) ∨
    (¬ s.Unchanged k t ∧ ¬ s.Cancels k t ∧
      s.updateThread accepts k t = (s.track k t, [.tracks k t])) := by
  unfold updateThread
  by_cases hunchanged : s.Unchanged k t
  · exact Or.inl ⟨hunchanged, if_pos hunchanged⟩
  · refine Or.inr ?_
    by_cases hcancels : s.Cancels k t
    · exact Or.inl ⟨hunchanged, hcancels, by rw [if_neg hunchanged, if_pos hcancels]⟩
    · exact Or.inr ⟨hunchanged, hcancels, by rw [if_neg hunchanged, if_neg hcancels]⟩

/-! ## Frames -/

/-- The two states say the same of one thread. -/
structure SameFor (k : Pubkey) (s s' : StagingState Q) : Prop where
  tracked : s'.trackedThreads k = s.trackedThreads k
  queued : k ∈ s'.queuedThreads ↔ k ∈ s.queuedThreads
  holds : ∀ q x, x.threadPubkey = k → (s'.Holds q x ↔ s.Holds q x)

theorem SameFor.refl (k : Pubkey) (s : StagingState Q) : SameFor k s s :=
  ⟨rfl, Iff.rfl, fun _ _ _ => Iff.rfl⟩

theorem SameFor.trans {k : Pubkey} {s s' s'' : StagingState Q} (h : SameFor k s s')
    (h' : SameFor k s' s'') : SameFor k s s'' where
  tracked := h'.tracked.trans h.tracked
  queued := h'.queued.trans h.queued
  holds q x hx := (h'.holds q x hx).trans (h.holds q x hx)

/-- An entry is made under the key of its thread and with its count. -/
theorem scheduleThread_pushed {k : Pubkey} {t : Thread} {q : QueueType} {x : ScheduledThread}
    (h : Staging.scheduleThread k t = .pushed q x) :
    x.threadPubkey = k ∧ x.execCount = t.execCount := by
  unfold Staging.scheduleThread at h
  cases htrigger : t.trigger <;> cases hschedule : t.schedule <;>
    simp only [htrigger, hschedule, Scheduled.pushed.injEq, reduceCtorEq] at h <;>
    simp [← h.2]

theorem scheduleThread_of_ne {k k' : Pubkey} (h : k ≠ k') (s : StagingState Q) (t : Thread) :
    SameFor k s (s.scheduleThread k' t) := by
  refine ⟨by simp, by simp, fun q x hx => ?_⟩
  rw [scheduleThread_holds]
  have hother : Staging.scheduleThread k' t ≠ .pushed q x := fun hpushed =>
    h (hx.symm.trans (scheduleThread_pushed hpushed).1)
  simp [hother]

theorem track_of_ne {k k' : Pubkey} (h : k ≠ k') (s : StagingState Q) (t : Thread) :
    SameFor k s (s.track k' t) := by
  refine ⟨?_, by simp, fun q x hx => ?_⟩
  · rw [track_trackedThreads, Function.update_of_ne h]
  · rw [track_holds]
    have hother : Staging.scheduleThread k' t ≠ .pushed q x := fun hpushed =>
      h (hx.symm.trans (scheduleThread_pushed hpushed).1)
    simp [hother]

theorem erase_of_ne {k k' : Pubkey} (h : k ≠ k') (s : StagingState Q) :
    SameFor k s { s with queuedThreads := s.queuedThreads.erase k' } :=
  ⟨rfl, by simp [h], fun _ _ _ => Iff.rfl⟩

theorem untrack_of_ne {k k' : Pubkey} (h : k ≠ k') (s : StagingState Q) :
    SameFor k s (s.untrack k') :=
  ⟨Function.update_of_ne h _ _, by simp [untrack, h], fun _ _ _ => Iff.rfl⟩

/-- An update says nothing of other threads. -/
theorem handleAccountUpdate_of_ne (e : CacheEnv) (accepts : Pubkey → Bool) {k : Pubkey}
    {update : AccountUpdate} (h : k ≠ update.pubkey) (s : StagingState Q) :
    SameFor k s (s.handleAccountUpdate e accepts update).1 := by
  unfold handleAccountUpdate
  cases classifyAccount e update.data update.pubkey with
  | clock => exact SameFor.refl k s
  | other => exact SameFor.refl k s
  | deleted => exact untrack_of_ne h s
  | thread t =>
    dsimp only
    rcases updateThread_cases accepts s update.pubkey t with ⟨-, heq⟩ | ⟨-, -, heq⟩ | ⟨-, -, heq⟩
    · rw [heq]
      exact SameFor.refl k s
    · rw [heq]
      exact (erase_of_ne h s).trans (track_of_ne h _ t)
    · rw [heq]
      exact track_of_ne h s t

/-! ## Ready threads -/

end StagingState

/-- An entry that `check_queue` turns into a ready thread. -/
def Live (trackedThreads : Pubkey → Option TrackedThread) (entry : ScheduledThread) : Prop :=
  ∃ tracked, trackedThreads entry.threadPubkey = some tracked ∧ tracked.paused = false ∧
    entry.execCount = tracked.execCount

namespace Scan

/-- The threads found are distinct and are those marked as processed. -/
structure Sound (c : Scan) : Prop where
  processed : ∀ k, k ∈ c.processed ↔ k ∈ c.ready.map ReadyThread.threadPubkey
  nodup : (c.ready.map ReadyThread.threadPubkey).Nodup
  latest : ∀ k n, c.latestExecCount k = some n → k ∈ c.processed

/-- A live entry of a thread that has not been processed is ready, whatever the latest count
of executions: that count is only kept for processed threads. -/
theorem consider_cases {c : Scan} (h : c.Sound) (trackedThreads : Pubkey → Option TrackedThread)
    (queue : QueueType) (timestamp : ℤ) (entry : ScheduledThread) :
    ((entry.threadPubkey ∈ c.processed ∨ ¬ Live trackedThreads entry) ∧
      c.consider trackedThreads queue timestamp entry = c) ∨
    (entry.threadPubkey ∉ c.processed ∧ Live trackedThreads entry ∧
      c.consider trackedThreads queue timestamp entry =
        ⟨c.ready ++ [readyThread queue timestamp entry entry.execCount],
          insert entry.threadPubkey c.processed,
          Function.update c.latestExecCount entry.threadPubkey (some entry.execCount)⟩) := by
  unfold consider
  by_cases hprocessed : entry.threadPubkey ∈ c.processed
  · exact Or.inl ⟨Or.inl hprocessed, if_pos hprocessed⟩
  · have hlatest : c.latestExecCount entry.threadPubkey = none := by
      cases hcount : c.latestExecCount entry.threadPubkey with
      | none => rfl
      | some n => exact absurd (h.latest _ n hcount) hprocessed
    cases htracked : trackedThreads entry.threadPubkey with
    | none => exact Or.inl ⟨Or.inr (by simp [Live, htracked]), by simp [hprocessed, htracked]⟩
    | some tracked =>
      cases hpaused : tracked.paused with
      | true =>
        refine Or.inl ⟨Or.inr (by simp [Live, htracked, hpaused]), ?_⟩
        simp [hprocessed, htracked, hpaused]
      | false =>
        by_cases hcount : entry.execCount = tracked.execCount
        · refine Or.inr ⟨hprocessed, ⟨tracked, htracked, hpaused, hcount⟩, ?_⟩
          simp [hprocessed, htracked, hpaused, hcount, hlatest]
        · refine Or.inl ⟨Or.inr (by simp [Live, htracked, hcount]), ?_⟩
          simp [hprocessed, htracked, hpaused, hcount]

theorem Sound.consider {c : Scan} (h : c.Sound) (trackedThreads : Pubkey → Option TrackedThread)
    (queue : QueueType) (timestamp : ℤ) (entry : ScheduledThread) :
    (c.consider trackedThreads queue timestamp entry).Sound ∧
      ∀ k, k ∈ (c.consider trackedThreads queue timestamp entry).processed ↔
        k ∈ c.processed ∨ (entry.threadPubkey = k ∧ Live trackedThreads entry) := by
  rcases consider_cases h trackedThreads queue timestamp entry with
    ⟨hskipped, heq⟩ | ⟨hnew, hlive, heq⟩
  · rw [heq]
    refine ⟨h, fun k => ⟨Or.inl, fun hk => ?_⟩⟩
    rcases hk with hk | ⟨rfl, hlive⟩
    · exact hk
    · exact hskipped.resolve_right (not_not_intro hlive)
  · rw [heq]
    have hkey : (readyThread queue timestamp entry entry.execCount).threadPubkey =
        entry.threadPubkey := rfl
    refine ⟨⟨fun k => ?_, ?_, fun k n hk => ?_⟩, fun k => ?_⟩
    · simp only [Finset.mem_insert, List.map_append, List.mem_append, List.map_cons, List.map_nil,
        List.mem_singleton, hkey, h.processed]
      tauto
    · rw [List.map_append, List.nodup_append]
      refine ⟨h.nodup, List.nodup_singleton _, fun k hk k' hk' => ?_⟩
      rw [List.map_cons, List.map_nil, List.mem_singleton, hkey] at hk'
      rintro rfl
      exact hnew (by rw [← hk']; exact (h.processed _).mpr hk)
    · by_cases hself : k = entry.threadPubkey
      · simp [hself]
      · have hold : c.latestExecCount k = some n := by
          rw [← hk]
          exact (Function.update_of_ne hself _ _).symm
        exact Finset.mem_insert_of_mem (h.latest k n hold)
    · simp only [Finset.mem_insert]
      constructor
      · rintro (rfl | hk)
        · exact Or.inr ⟨rfl, hlive⟩
        · exact Or.inl hk
      · rintro (hk | ⟨rfl, -⟩)
        · exact Or.inr hk
        · exact Or.inl rfl

theorem Sound.foldl {c : Scan} (h : c.Sound) (trackedThreads : Pubkey → Option TrackedThread)
    (queue : QueueType) (timestamp : ℤ) (entries : List ScheduledThread) :
    (entries.foldl (Scan.consider trackedThreads queue timestamp) c).Sound ∧
      ∀ k, k ∈ (entries.foldl (Scan.consider trackedThreads queue timestamp) c).processed ↔
        k ∈ c.processed ∨ ∃ entry ∈ entries, entry.threadPubkey = k ∧ Live trackedThreads entry := by
  induction entries generalizing c with
  | nil => simp [h]
  | cons entry entries ih =>
    obtain ⟨hsound, hprocessed⟩ := h.consider trackedThreads queue timestamp entry
    obtain ⟨hsound', hprocessed'⟩ := ih hsound
    refine ⟨hsound', fun k => ?_⟩
    rw [List.foldl_cons, hprocessed', hprocessed]
    simp only [List.mem_cons, exists_eq_or_imp]
    tauto

end Scan

namespace StagingState

variable {Q : Type} [MinHeap Q ScheduledThread.triggerValue]

/-- The thread has a due entry of its tracked count and is not paused. -/
def Ready (s : StagingState Q) (clock : Clock) (k : Pubkey) : Prop :=
  ∃ q entry, s.Holds q entry ∧ entry.due (currentValue clock q) = true ∧
    entry.threadPubkey = k ∧ Live s.trackedThreads entry

/-- What checking one queue adds to the threads found. -/
theorem checkQueue_spec (clock : Clock) (s : StagingState Q) {c : Scan} (h : c.Sound)
    (queue : QueueType) :
    (s.checkQueue clock c queue).2.Sound ∧
      ∀ k, k ∈ (s.checkQueue clock c queue).2.processed ↔ k ∈ c.processed ∨
        ∃ entry, s.Holds queue entry ∧ entry.due (currentValue clock queue) = true ∧
          entry.threadPubkey = k ∧ Live s.trackedThreads entry := by
  have hreset : Scan.Sound { c with latestExecCount := fun _ => none } :=
    ⟨h.processed, h.nodup, by simp⟩
  obtain ⟨hsound, hprocessed⟩ := hreset.foldl s.trackedThreads queue clock.unixTimestamp
    (MinHeap.popDue (currentValue clock queue) (s.queue queue)).1
  refine ⟨hsound, fun k => (hprocessed k).trans ?_⟩
  simp only [MinHeap.mem_popDue, Holds, ScheduledThread.due, decide_eq_true_eq, and_assoc]

@[simp] theorem checkQueue_trackedThreads (clock : Clock) (s : StagingState Q) (c : Scan)
    (queue : QueueType) : (s.checkQueue clock c queue).1.trackedThreads = s.trackedThreads :=
  rfl

theorem checkQueue_holds (clock : Clock) (s : StagingState Q) (c : Scan) (queue q : QueueType)
    (x : ScheduledThread) : (s.checkQueue clock c queue).1.Holds q x ↔
      s.Holds q x ∧ (q = queue → ¬ x.due (currentValue clock queue) = true) := by
  refine (holds_update s queue q (MinHeap.popDue (currentValue clock queue)
    (s.queue queue)).2 x).trans ?_
  split_ifs with hq
  · rw [hq, MinHeap.mem_popDue_rest]
    simp [Holds, ScheduledThread.due]
  · simp [hq]

/-- The due entries are gone, the others are still there. -/
theorem getReadyThreads_holds (s : StagingState Q) (clock : Clock) (q : QueueType)
    (x : ScheduledThread) : (s.getReadyThreads clock).1.Holds q x ↔
      s.Holds q x ∧ ¬ x.due (currentValue clock q) = true := by
  unfold getReadyThreads
  simp only [checkQueue_holds]
  cases q <;> simp

/-- The ready threads are distinct, and they are those with a due entry of their tracked
count of executions. -/
theorem getReadyThreads_spec (s : StagingState Q) (clock : Clock) :
    ((s.getReadyThreads clock).2.map ReadyThread.threadPubkey).Nodup ∧
      ∀ k, k ∈ (s.getReadyThreads clock).2.map ReadyThread.threadPubkey ↔ s.Ready clock k := by
  have hstart : Scan.Sound ⟨[], ∅, fun _ => none⟩ := ⟨by simp, by simp, by simp⟩
  obtain ⟨hsound, hmem⟩ := checkQueue_spec clock s hstart .timestamp
  obtain ⟨hsound', hmem'⟩ := checkQueue_spec clock
    (s.checkQueue clock ⟨[], ∅, fun _ => none⟩ .timestamp).1 hsound .slot
  obtain ⟨hsound'', hmem''⟩ := checkQueue_spec clock
    ((s.checkQueue clock ⟨[], ∅, fun _ => none⟩ .timestamp).1.checkQueue clock
      (s.checkQueue clock ⟨[], ∅, fun _ => none⟩ .timestamp).2 .slot).1 hsound' .epoch
  refine ⟨hsound''.nodup, fun k => ?_⟩
  refine (hsound''.processed k).symm.trans ?_
  rw [hmem'', hmem', hmem]
  simp only [checkQueue_holds, checkQueue_trackedThreads, Ready]
  constructor
  · rintro (((hk | ⟨entry, h⟩) | ⟨entry, h⟩) | ⟨entry, h⟩)
    · exact absurd hk (Finset.notMem_empty k)
    · exact ⟨.timestamp, entry, h⟩
    · exact ⟨.slot, entry, h.1.1, h.2⟩
    · exact ⟨.epoch, entry, h.1.1.1, h.2⟩
  · rintro ⟨q, entry, hholds, h⟩
    cases q with
    | timestamp => exact Or.inl (Or.inl (Or.inr ⟨entry, hholds, h⟩))
    | slot => exact Or.inl (Or.inr ⟨entry, ⟨hholds, by simp⟩, h⟩)
    | epoch => exact Or.inr ⟨entry, ⟨⟨hholds, by simp⟩, by simp⟩, h⟩

end StagingState

/-! ## Ticks -/

namespace StagingState

variable {Q : Type} [MinHeap Q ScheduledThread.triggerValue]

/-- The threads that are ready and go to the processor. -/
def handedOver (accepts : Pubkey → Bool) (s : StagingState Q) (clock : Clock) : List ReadyThread :=
  (s.getReadyThreads clock).2.filter (HandsOver accepts s)

theorem mem_handedOver (accepts : Pubkey → Bool) (s : StagingState Q) (clock : Clock)
    (k : Pubkey) : k ∈ (s.handedOver accepts clock).map ReadyThread.threadPubkey ↔
      s.Ready clock k ∧ k ∉ s.queuedThreads ∧ s.processorRef = true ∧ accepts k = true := by
  rw [← (s.getReadyThreads_spec clock).2 k]
  simp only [handedOver, List.mem_map, List.mem_filter]
  constructor
  · rintro ⟨ready, ⟨hready, hover⟩, rfl⟩
    exact ⟨⟨ready, hready, rfl⟩, of_decide_eq_true hover⟩
  · rintro ⟨⟨ready, hready, rfl⟩, hover⟩
    exact ⟨ready, ⟨hready, decide_eq_true hover⟩, rfl⟩

theorem handedOver_nodup (accepts : Pubkey → Bool) (s : StagingState Q) (clock : Clock) :
    ((s.handedOver accepts clock).map ReadyThread.threadPubkey).Nodup :=
  (s.getReadyThreads_spec clock).1.sublist (List.filter_sublist.map _)

/-- The state once the queues have been checked and the ready threads handed over. -/
def checked (accepts : Pubkey → Bool) (s : StagingState Q) (clock : Clock) : StagingState Q :=
  { s with
    queue := (s.getReadyThreads clock).1.queue
    queuedThreads := s.queuedThreads ∪
      ((s.handedOver accepts clock).map ReadyThread.threadPubkey).toFinset }

theorem checked_holds (accepts : Pubkey → Bool) (s : StagingState Q) (clock : Clock)
    (q : QueueType) (x : ScheduledThread) : (s.checked accepts clock).Holds q x ↔
      s.Holds q x ∧ ¬ x.due (currentValue clock q) = true :=
  s.getReadyThreads_holds clock q x

theorem mem_checked_queuedThreads (accepts : Pubkey → Bool) (s : StagingState Q) (clock : Clock)
    (k : Pubkey) : k ∈ (s.checked accepts clock).queuedThreads ↔
      k ∈ s.queuedThreads ∨ (s.Ready clock k ∧ s.processorRef = true ∧ accepts k = true) := by
  show k ∈ s.queuedThreads ∪
    ((s.handedOver accepts clock).map ReadyThread.threadPubkey).toFinset ↔ _
  rw [Finset.mem_union, List.mem_toFinset, mem_handedOver]
  tauto

end StagingState

namespace StagingActor

variable {e : CacheEnv} {Q : Type} [MinHeap Q ScheduledThread.triggerValue]

/-- A tick that is not stale: refetches, then the check of the queues. -/
theorem handleClockTick_of_lt (rpc : ℕ → AccountCache.Rpc) (accepts : Pubkey → Bool)
    {a : StagingActor e Q} {clock : Clock} (h : a.state.lastProcessedSlot < clock.slot) :
    a.handleClockTick rpc accepts clock =
      ({ (a.prepareTick rpc clock).1 with
          state := (a.prepareTick rpc clock).1.state.checked accepts clock },
        (a.prepareTick rpc clock).2 ++
          ((a.prepareTick rpc clock).1.state.handedOver accepts clock).map
            fun r => .sent (.processReady r)) := by
  unfold handleClockTick
  rw [if_neg (not_le.mpr h)]
  dsimp only
  rw [StagingState.dispatchAll_eq accepts _
    ((a.prepareTick rpc clock).1.state.getReadyThreads_spec clock).1]
  rfl

theorem handleClockTick_of_le (rpc : ℕ → AccountCache.Rpc) (accepts : Pubkey → Bool)
    {a : StagingActor e Q} {clock : Clock} (h : clock.slot ≤ a.state.lastProcessedSlot) :
    a.handleClockTick rpc accepts clock = (a, []) :=
  if_pos h

/-- What a refetch can do. -/
theorem refetch_cases (rpc : AccountCache.Rpc) (a : StagingActor e Q) (k : Pubkey) :
    (∃ t, (a.cache.getThreadOrFetch rpc k).1 = .ok t ∧ a.refetch rpc k =
      (⟨a.state.track k t, (a.cache.getThreadOrFetch rpc k).2, a.evictions⟩, [.tracks k t])) ∨
    (∃ err, (a.cache.getThreadOrFetch rpc k).1 = .error err ∧ a.refetch rpc k =
      (⟨a.state.untrack k, (a.cache.getThreadOrFetch rpc k).2, a.evictions⟩, [.untracks k])) := by
  unfold refetch
  generalize a.cache.getThreadOrFetch rpc k = fetched
  obtain ⟨result, cache⟩ := fetched
  cases result with
  | ok t => exact Or.inl ⟨t, rfl, rfl⟩
  | error err => exact Or.inr ⟨err, rfl, rfl⟩

/-- What a completion can do. -/
theorem threadCompleted_cases (a : StagingActor e Q) (k : Pubkey) (reason : CompletionReason) :
    ((reason = .executed ∨ a.cachedThread k = none) ∧ a.threadCompleted k reason =
      { a with state := { a.state with queuedThreads := a.state.queuedThreads.erase k } }) ∨
    (∃ t, reason = .skipped ∧ a.cachedThread k = some t ∧ a.threadCompleted k reason =
      { a with state := { a.state with
        queuedThreads := a.state.queuedThreads.erase k }.scheduleThread k t }) := by
  unfold threadCompleted
  cases reason with
  | executed => exact Or.inl ⟨Or.inl rfl, rfl⟩
  | skipped =>
    cases hcached : a.cachedThread k with
    | none => exact Or.inl ⟨Or.inr rfl, rfl⟩
    | some t => exact Or.inr ⟨t, rfl, rfl, rfl⟩

/-- Refetching sends nothing. -/
theorem sent_notMem_processEvictions (rpc : ℕ → AccountCache.Rpc) (n : ℕ) (a : StagingActor e Q)
    (message : ProcessorMessage) : .sent message ∉ (a.processEvictions rpc n).2 := by
  induction n generalizing a with
  | zero => simp [processEvictions]
  | succ n ih =>
    unfold processEvictions
    cases a.evictions with
    | nil => simp
    | cons k rest =>
      have hlater := ih (refetch (rpc n) { a with evictions := rest } k).1
      rcases refetch_cases (rpc n) { a with evictions := rest } k with
        ⟨t, -, heq⟩ | ⟨err, -, heq⟩
      · rw [heq] at hlater
        simp [heq, hlater]
      · rw [heq] at hlater
        simp [heq, hlater]

@[simp] theorem startTick_cache (a : StagingActor e Q) (clock : Clock) :
    (a.startTick clock).cache = a.cache :=
  rfl

@[simp] theorem startTick_evictions (a : StagingActor e Q) (clock : Clock) :
    (a.startTick clock).evictions = a.evictions :=
  rfl

/-- Compaction aside, a tick starts with the tracked threads as they are. -/
theorem startTick_state (a : StagingActor e Q) (clock : Clock) :
    (a.startTick clock).state =
      { a.state with
        lastProcessedSlot := clock.slot
        queue := (a.startTick clock).state.queue } := by
  unfold startTick
  dsimp only
  split_ifs <;> rfl

@[simp] theorem startTick_trackedThreads (a : StagingActor e Q) (clock : Clock) :
    (a.startTick clock).state.trackedThreads = a.state.trackedThreads := by
  rw [startTick_state]

@[simp] theorem startTick_queuedThreads (a : StagingActor e Q) (clock : Clock) :
    (a.startTick clock).state.queuedThreads = a.state.queuedThreads := by
  rw [startTick_state]

@[simp] theorem startTick_processorRef (a : StagingActor e Q) (clock : Clock) :
    (a.startTick clock).state.processorRef = a.state.processorRef := by
  rw [startTick_state]

/-- Compaction keeps every entry with the count of a tracked thread. -/
theorem startTick_holds (a : StagingActor e Q) (clock : Clock) (q : QueueType)
    (x : ScheduledThread) : ((a.startTick clock).state.Holds q x → a.state.Holds q x) ∧
      (a.state.current x = true → a.state.Holds q x → (a.startTick clock).state.Holds q x) := by
  unfold startTick
  dsimp only
  split_ifs
  · constructor
    · exact fun h => ((StagingState.compactQueues_holds _ q x).mp h).1
    · exact fun hcurrent h => (StagingState.compactQueues_holds _ q x).mpr ⟨h, hcurrent⟩
  · exact ⟨id, fun _ => id⟩

end StagingActor

/-! ## Runs -/

/-- What happens to the staging actor: a message, or a change of the cache elsewhere, where
entries may expire. -/
inductive StagingEvent (e : CacheEnv)
  | message (rpc : ℕ → AccountCache.Rpc) (accepts : Pubkey → Bool)
      (message : StagingMessage)
  | elsewhere (cache : AccountCache e) (expired : List Pubkey)

namespace StagingActor

variable {e : CacheEnv} {Q : Type} [MinHeap Q ScheduledThread.triggerValue]

def step (a : StagingActor e Q) : StagingEvent e → Option (StagingActor e Q × List Effect)
  | .message rpc accepts message => a.handle rpc accepts message
  | .elsewhere cache expired =>
    some ({ a with cache := cache, evictions := a.evictions ++ expired }, [])

def Step (a : StagingActor e Q) (ev : StagingEvent e) (b : StagingActor e Q) : Prop :=
  ∃ effects, a.step ev = some (b, effects)

end StagingActor

/-! ## A small staging actor -/

/-- Threads of eight bytes, of which the last four tell the trigger, the count of executions,
the next moment and the pause. -/
def stagingEnv : CacheEnv :=
  AccountCache.sampleCacheEnv fun data => AccountCache.decodeSample (data.drop 4)

def sampleUpdate (key : Pubkey) (kind count next paused : UInt8) (slot : ℕ) : AccountUpdate :=
  ⟨key, [0, 0, 0, 0, kind, count, next, paused], slot⟩

abbrev SampleQueue := SortedQueue ScheduledThread.triggerValue

/-- A message that finds the processor running and no answer of the node. -/
def sampleMessage (message : StagingMessage) : StagingEvent stagingEnv :=
  .message (fun _ => ⟨fun _ => .error (), fun _ => none⟩) (fun _ => true) message

end Antegen.Client
