import Antegen.ClientSystem
import Antegen.ThreadUpdates

/-!
# Threads that are not lost

A thread that waits for its moment is known to staging in one of three ways: it has been
handed over, a queue has an entry for it, or its cache entry will expire and have it
refetched. An entry is used up by the tick that finds it due, and nothing brings it back
while the account on chain stays as it is, except a refetch. The account changes only by a
successful execution, so a thread whose execution fails, or that cannot be handed over,
depends on its cache entry; and the entries of slot and epoch triggers never expire.
-/
namespace Antegen.Client

open Transition Staging

/-- The node has no other data for the account. -/
def AccountCache.Rpc.Serves (rpc : AccountCache.Rpc) (key : Pubkey) (data : List UInt8) : Prop :=
  ∀ encoded found, rpc.getAccount key = .ok (some encoded) →
    rpc.decodeBase64 encoded = some found → found = data

/-- The account of a thread on chain that waits for a moment. -/
structure ChainThread (e : CacheEnv) where
  key : Pubkey
  data : List UInt8
  thread : Thread
  isThread : classifyAccount e data key = .thread thread
  unpaused : thread.paused = false
  hasMoment : HasMoment thread

namespace ChainThread

variable {e : CacheEnv} {Q : Type}

theorem tryDeserialize (c : ChainThread e) : e.tryDeserialize c.data = some c.thread := by
  have h := c.isThread
  unfold classifyAccount at h
  split_ifs at h
  cases ht : e.tryDeserialize c.data with
  | none => exact absurd h (by simp [ht])
  | some t => exact congrArg some (by simpa [ht] using h)

/-- The event leaves the account as it is: what arrives, is fetched or is cached for it is its
data. -/
def Unchanging (c : ChainThread e) : SystemEvent → Prop
  | .arrives _ _ (.accountUpdate update) => update.pubkey = c.key → update.data = c.data
  | .arrives rpc _ (.clockTick _) => ∀ n, (rpc n).Serves c.key c.data
  | .processes rpc _ => rpc.Serves c.key c.data
  | .reports rpc _ _ => rpc.Serves c.key c.data
  | .caches key data _ => key = c.key → data = c.data
  | _ => True

/-- What is tracked and cached for the thread comes from its data. -/
structure Settled (c : ChainThread e) (a : StagingActor e Q) : Prop where
  tracked : ∀ x, a.state.trackedThreads c.key = some x → x = .ofThread c.thread
  cached : ∀ entry, a.cache c.key = some entry →
    entry.data = c.data ∧ entry.triggerType = .fromThread c.thread

/-- The thread will be refetched: its cache entry has a time to live, or is gone by it and the
refetch is waiting. -/
def Backed (c : ChainThread e) (a : StagingActor e Q) : Prop :=
  (∃ entry, a.cache c.key = some entry ∧ entry.triggerType.Expires) ∨ c.key ∈ a.evictions

/-! ## The cache -/

/-- The entry of the thread is as before, or new with its data. -/
def Refilled (c : ChainThread e) (cache cache' : AccountCache e) : Prop :=
  cache' c.key = cache c.key ∨ ∃ entry, cache' c.key = some entry ∧
    entry.data = c.data ∧ entry.triggerType = .fromThread c.thread

/-- Reading a thread leaves the entry of the thread alone, or fills it with its data. -/
theorem refilled_fetch (c : ChainThread e) {rpc : AccountCache.Rpc}
    (hrpc : rpc.Serves c.key c.data) (cache : AccountCache e) (key : Pubkey) :
    c.Refilled cache (cache.getThreadOrFetch rpc key).2 := by
  rcases AccountCache.getThreadOrFetch_cases rpc cache key with ⟨entry, t, -, -, heq⟩ |
    ⟨err, heq⟩ | ⟨encoded, data, t, -, haccount, hdata, ht, heq⟩
  · exact Or.inl (by rw [heq])
  · exact Or.inl (by rw [heq])
  · by_cases hkey : c.key = key
    · rw [← hkey] at haccount
      obtain rfl := hrpc encoded data haccount hdata
      have hthread : t = c.thread := Option.some.inj (ht.symm.trans c.tryDeserialize)
      rw [heq, ← hkey]
      refine Or.inr ⟨_, AccountCache.put_self cache c.key c.data 0 _, rfl, ?_⟩
      rw [hthread]
    · refine Or.inl ?_
      rw [heq]
      exact AccountCache.put_of_ne cache hkey data 0 _

theorem refilled_putIfNewer (c : ChainThread e) {key : Pubkey} {data : List UInt8}
    (hdata : key = c.key → data = c.data) (cache : AccountCache e) (slot : ℕ) :
    c.Refilled cache (cache.putIfNewer key data slot).1 := by
  by_cases hkey : c.key = key
  · rcases AccountCache.putIfNewer_cases cache key data slot with ⟨c', -, -, heq⟩ | ⟨-, heq⟩
    · exact Or.inl (by rw [heq])
    · obtain rfl := hdata hkey.symm
      rw [heq, ← hkey]
      refine Or.inr ⟨_, AccountCache.put_self cache c.key c.data slot _, rfl, ?_⟩
      simp [AccountCache.triggerTypeOf, c.tryDeserialize]
  · exact Or.inl (AccountCache.putIfNewer_of_ne cache hkey data slot)

theorem Settled.cached_refill {c : ChainThread e} {a : StagingActor e Q} (h : c.Settled a)
    {cache : AccountCache e} (hcache : c.Refilled a.cache cache) (entry : CachedAccount e)
    (hentry : cache c.key = some entry) :
    entry.data = c.data ∧ entry.triggerType = .fromThread c.thread := by
  rcases hcache with hsame | ⟨new, hnew, hdata⟩
  · exact h.cached entry (hsame.symm.trans hentry)
  · rw [hnew] at hentry
    obtain rfl := Option.some.inj hentry
    exact hdata

theorem Settled.refill {c : ChainThread e} {a a' : StagingActor e Q} (h : c.Settled a)
    (htracked : a'.state.trackedThreads c.key = a.state.trackedThreads c.key)
    (hcache : c.Refilled a.cache a'.cache) : c.Settled a' := by
  refine ⟨?_, h.cached_refill hcache⟩
  rw [htracked]
  exact h.tracked

theorem Backed.refill {c : ChainThread e} {a a' : StagingActor e Q} (hsettled : c.Settled a)
    (hcache : c.Refilled a.cache a'.cache) (hevictions : a'.evictions = a.evictions)
    (h : c.Backed a) : c.Backed a' := by
  rcases h with ⟨entry, hentry, hexpires⟩ | hwaiting
  · rcases hcache with hsame | ⟨new, hnew, -, htype⟩
    · exact Or.inl ⟨entry, hsame.trans hentry, hexpires⟩
    · rw [(hsettled.cached entry hentry).2] at hexpires
      exact Or.inl ⟨new, hnew, htype ▸ hexpires⟩
  · exact Or.inr (hevictions ▸ hwaiting)

theorem fetched_thread {c : ChainThread e} {a : StagingActor e Q} (h : c.Settled a)
    {rpc : AccountCache.Rpc} (hrpc : rpc.Serves c.key c.data) {t : Thread}
    (ht : (a.cache.getThreadOrFetch rpc c.key).1 = .ok t) : t = c.thread := by
  rcases AccountCache.getThreadOrFetch_cases rpc a.cache c.key with
    ⟨entry, t', hentry, ht', heq⟩ | ⟨err, heq⟩ | ⟨encoded, data, t', -, haccount, hdata, ht', heq⟩
  · rw [(h.cached entry hentry).1, c.tryDeserialize] at ht'
    rw [heq] at ht
    exact (Except.ok.inj ht).symm.trans (Option.some.inj ht').symm
  · rw [heq] at ht
    exact absurd ht (by simp)
  · rw [hrpc encoded data haccount hdata, c.tryDeserialize] at ht'
    rw [heq] at ht
    exact (Except.ok.inj ht).symm.trans (Option.some.inj ht').symm

variable [MinHeap Q ScheduledThread.triggerValue]

/-- A queue has an entry of the thread with its count of executions. -/
def HasEntry (c : ChainThread e) (s : StagingState Q) : Prop :=
  ∃ q x, s.Holds q x ∧ x.threadPubkey = c.key ∧ x.execCount = c.thread.execCount

/-- The thread is not lost. -/
def Kept (c : ChainThread e) (a : StagingActor e Q) : Prop :=
  a.state.trackedThreads c.key ≠ none →
    c.key ∈ a.state.queuedThreads ∨ c.HasEntry a.state ∨ c.Backed a

/-- A tick that finds staging like this does not lose the thread: it is with the processor, has
an entry that is not due yet, has a due entry and can be handed over, or will be refetched. -/
def Survives (c : ChainThread e) (accepts : Pubkey → Bool) (clock : Clock)
    (a : StagingActor e Q) : Prop :=
  a.state.trackedThreads c.key ≠ none →
    c.key ∈ a.state.queuedThreads ∨
    (∃ q x, a.state.Holds q x ∧ x.threadPubkey = c.key ∧ x.execCount = c.thread.execCount ∧
      (x.due (currentValue clock q) = true → a.state.processorRef = true ∧ accepts c.key = true)) ∨
    c.Backed a

/-- The step does not lose the thread. -/
def Keeps (c : ChainThread e) (s : System e Q) : SystemEvent → Prop
  | .arrives _ _ (.accountUpdate update) =>
    update.pubkey = c.key → s.staging.trackedThreads c.key = none →
      Staging.scheduleThread c.key c.thread ≠ .mismatched ∨ c.key ∈ s.staging.queuedThreads ∨
        c.HasEntry s.staging ∨ c.Backed s.actor
  | .arrives rpc accepts (.clockTick clock) =>
    s.staging.lastProcessedSlot < clock.slot →
      c.Survives accepts clock (s.actor.prepareTick rpc clock).1
  | .answers =>
    ∀ reason rest, s.pool.staging.messages = .threadCompleted c.key reason :: rest →
      s.staging.trackedThreads c.key ≠ none → c.HasEntry s.staging ∨ c.Backed s.actor ∨
        (reason = .skipped ∧ (s.pool.cache c.key).isSome ∧
          Staging.scheduleThread c.key c.thread ≠ .mismatched)
  | .evicts key =>
    key = c.key → s.staging.trackedThreads c.key ≠ none →
      c.key ∈ s.staging.queuedThreads ∨ c.HasEntry s.staging ∨ c.key ∈ s.evictions
  | _ => True

/-! ## What does not concern the thread -/

theorem hasEntry_congr (c : ChainThread e) {s s' : StagingState Q}
    (h : StagingState.SameFor c.key s s') : c.HasEntry s' ↔ c.HasEntry s := by
  unfold HasEntry
  refine exists_congr fun q => exists_congr fun x => ?_
  constructor
  · rintro ⟨hholds, hkey, hcount⟩
    exact ⟨(h.holds q x hkey).mp hholds, hkey, hcount⟩
  · rintro ⟨hholds, hkey, hcount⟩
    exact ⟨(h.holds q x hkey).mpr hholds, hkey, hcount⟩

theorem kept_congr (c : ChainThread e) {a a' : StagingActor e Q}
    (h : StagingState.SameFor c.key a.state a'.state) (hbacked : c.Backed a' ↔ c.Backed a) :
    c.Kept a' ↔ c.Kept a := by
  unfold Kept
  rw [h.tracked, h.queued, hasEntry_congr c h, hbacked]

/-- A pushed entry is an entry of the thread. -/
theorem hasEntry_push (c : ChainThread e) {s s' : StagingState Q}
    (hholds : ∀ q x, s'.Holds q x ↔
      s.Holds q x ∨ Staging.scheduleThread c.key c.thread = .pushed q x) :
    c.HasEntry s' ↔ c.HasEntry s ∨ Staging.scheduleThread c.key c.thread ≠ .mismatched := by
  have hmoment := (hasMoment_iff c.key c.thread).mp c.hasMoment
  unfold HasEntry
  constructor
  · rintro ⟨q, x, hx, hkey, hcount⟩
    rcases (hholds q x).mp hx with hold | hpushed
    · exact Or.inl ⟨q, x, hold, hkey, hcount⟩
    · exact Or.inr (by rw [hpushed]; simp)
  · rintro (⟨q, x, hold, hkey, hcount⟩ | hscheduled)
    · exact ⟨q, x, (hholds q x).mpr (Or.inl hold), hkey, hcount⟩
    · cases hpushed : Staging.scheduleThread c.key c.thread with
      | mismatched => exact absurd hpushed hscheduled
      | unsupported => exact absurd hpushed hmoment
      | pushed q x =>
        obtain ⟨hkey, hcount⟩ := StagingState.scheduleThread_pushed hpushed
        exact ⟨q, x, (hholds q x).mpr (Or.inr hpushed), hkey, hcount⟩

/-- Only the cache changes, and for the thread only by its data. -/
theorem Kept.refill {c : ChainThread e} {a a' : StagingActor e Q} (hsettled : c.Settled a)
    (hstate : a'.state = a.state) (hcache : c.Refilled a.cache a'.cache)
    (hevictions : a'.evictions = a.evictions) (h : c.Kept a) : c.Kept a' := by
  intro htracked
  rw [hstate] at htracked ⊢
  rcases h htracked with hqueued | hentry | hbacked
  · exact Or.inl hqueued
  · exact Or.inr (Or.inl hentry)
  · exact Or.inr (Or.inr (hbacked.refill hsettled hcache hevictions))

/-! ## Ticks -/

theorem Settled.refetch {c : ChainThread e} {a : StagingActor e Q} (h : c.Settled a)
    {rpc : AccountCache.Rpc} (hrpc : rpc.Serves c.key c.data) (k : Pubkey) :
    c.Settled (a.refetch rpc k).1 := by
  have hcache := c.refilled_fetch hrpc a.cache k
  rcases StagingActor.refetch_cases rpc a k with ⟨t, hok, heq⟩ | ⟨err, -, heq⟩
  · rw [heq]
    by_cases hk : c.key = k
    · refine ⟨fun x hx => ?_, ?_⟩
      · rw [← hk] at hok hx
        have hx' : some (TrackedThread.ofThread t) = some x := by simpa using hx
        rw [← Option.some.inj hx', fetched_thread h hrpc hok]
      · exact h.cached_refill hcache
    · exact h.refill (StagingState.track_of_ne hk a.state t).tracked hcache
  · rw [heq]
    by_cases hk : c.key = k
    · refine ⟨fun x hx => ?_, ?_⟩
      · rw [← hk] at hx
        exact absurd hx (by simp [StagingState.untrack])
      · exact h.cached_refill hcache
    · exact h.refill (StagingState.untrack_of_ne hk a.state).tracked hcache

theorem Settled.processEvictions {c : ChainThread e} {rpc : ℕ → AccountCache.Rpc}
    (hrpc : ∀ n, (rpc n).Serves c.key c.data) {n : ℕ} {a : StagingActor e Q} (h : c.Settled a) :
    c.Settled (a.processEvictions rpc n).1 := by
  induction n generalizing a with
  | zero => exact h
  | succ n ih =>
    unfold StagingActor.processEvictions
    cases a.evictions with
    | nil => exact h
    | cons k rest =>
      have hrest : c.Settled { a with evictions := rest } := ⟨h.tracked, h.cached⟩
      exact ih (hrest.refetch (hrpc n) k)

theorem Settled.prepareTick {c : ChainThread e} {rpc : ℕ → AccountCache.Rpc}
    (hrpc : ∀ n, (rpc n).Serves c.key c.data) {a : StagingActor e Q} (h : c.Settled a)
    (clock : Clock) : c.Settled (a.prepareTick rpc clock).1 := by
  refine Settled.processEvictions hrpc ⟨?_, h.cached⟩
  rw [StagingActor.startTick_trackedThreads]
  exact h.tracked

/-- The thread is ready if it has a due entry. -/
theorem Settled.ready_iff {c : ChainThread e} {a : StagingActor e Q} (h : c.Settled a)
    (htracked : a.state.trackedThreads c.key ≠ none) (clock : Clock) :
    a.state.Ready clock c.key ↔ ∃ q x, a.state.Holds q x ∧ x.threadPubkey = c.key ∧
      x.execCount = c.thread.execCount ∧ x.due (currentValue clock q) = true := by
  obtain ⟨x₀, hx₀⟩ := Option.ne_none_iff_exists'.mp htracked
  obtain rfl := h.tracked x₀ hx₀
  unfold StagingState.Ready Live
  constructor
  · rintro ⟨q, x, hholds, hdue, hkey, tracked, htracked, -, hcount⟩
    rw [hkey, hx₀] at htracked
    obtain rfl := Option.some.inj htracked
    exact ⟨q, x, hholds, hkey, hcount, hdue⟩
  · rintro ⟨q, x, hholds, hkey, hcount, hdue⟩
    have htracked' : a.state.trackedThreads x.threadPubkey = some (.ofThread c.thread) := by
      rw [hkey]
      exact hx₀
    exact ⟨q, x, hholds, hdue, hkey, _, htracked', c.unpaused, hcount⟩

/-- The check of the queues loses the thread unless it survives. -/
theorem Settled.kept_checked_iff {c : ChainThread e} {a : StagingActor e Q} (h : c.Settled a)
    (accepts : Pubkey → Bool) (clock : Clock) :
    c.Kept { a with state := a.state.checked accepts clock } ↔ c.Survives accepts clock a := by
  unfold Kept Survives
  show (a.state.trackedThreads c.key ≠ none → _) ↔ _
  refine forall_congr' fun htracked => ?_
  rw [StagingState.mem_checked_queuedThreads, h.ready_iff htracked]
  simp only [HasEntry, StagingState.checked_holds]
  constructor
  · rintro ((hqueued | ⟨⟨q, x, hholds, hkey, hcount, -⟩, hsent⟩) |
      ⟨q, x, ⟨hholds, hlate⟩, hkey, hcount⟩ | hbacked)
    · exact Or.inl hqueued
    · exact Or.inr (Or.inl ⟨q, x, hholds, hkey, hcount, fun _ => hsent⟩)
    · exact Or.inr (Or.inl ⟨q, x, hholds, hkey, hcount, fun hdue => absurd hdue hlate⟩)
    · exact Or.inr (Or.inr hbacked)
  · rintro (hqueued | ⟨q, x, hholds, hkey, hcount, hsent⟩ | hbacked)
    · exact Or.inl (Or.inl hqueued)
    · by_cases hdue : x.due (currentValue clock q) = true
      · exact Or.inl (Or.inr ⟨⟨q, x, hholds, hkey, hcount, hdue⟩, hsent hdue⟩)
      · exact Or.inr (Or.inl ⟨q, x, ⟨hholds, hdue⟩, hkey, hcount⟩)
    · exact Or.inr (Or.inr hbacked)

/-! ## Messages to staging -/

theorem kept_update_iff {c : ChainThread e} {a : StagingActor e Q} (h : c.Settled a)
    (hkept : c.Kept a) (accepts : Pubkey → Bool) {update : AccountUpdate}
    (hdata : update.pubkey = c.key → update.data = c.data) :
    let a' : StagingActor e Q :=
      { a with state := (a.state.handleAccountUpdate e accepts update).1 }
    c.Settled a' ∧ (c.Kept a' ↔ (update.pubkey = c.key →
      a.state.trackedThreads c.key = none →
        Staging.scheduleThread c.key c.thread ≠ .mismatched ∨ c.key ∈ a.state.queuedThreads ∨
          c.HasEntry a.state ∨ c.Backed a)) := by
  intro a'
  by_cases hkey : update.pubkey = c.key
  · have hclass : classifyAccount e update.data update.pubkey = .thread c.thread := by
      rw [hdata hkey, hkey]
      exact c.isThread
    have hstate : a'.state = (a.state.updateThread accepts c.key c.thread).1 := by
      show (a.state.handleAccountUpdate e accepts update).1 = _
      rw [StagingState.handleAccountUpdate, hclass, hkey]
    cases htracked : a.state.trackedThreads c.key with
    | some x =>
      obtain rfl := h.tracked x htracked
      have hsame : a'.state = a.state := by
        have hunchanged : a.state.Unchanged c.key c.thread := ⟨_, htracked, le_rfl, rfl⟩
        rw [hstate, StagingState.updateThread, if_pos hunchanged]
      have heq : a' = a := congrArg (fun state => { a with state := state }) hsame
      rw [heq]
      exact ⟨h, by simp [hkept]⟩
    | none =>
      have htrack : a'.state = a.state.track c.key c.thread := by
        have hunchanged : ¬ a.state.Unchanged c.key c.thread := by
          simp [StagingState.Unchanged, htracked]
        have hcancels : ¬ a.state.Cancels c.key c.thread := by
          simp [StagingState.Cancels, htracked]
        rw [hstate, StagingState.updateThread, if_neg hunchanged, if_neg hcancels]
      have hentry : c.HasEntry a'.state ↔
          c.HasEntry a.state ∨ Staging.scheduleThread c.key c.thread ≠ .mismatched := by
        refine c.hasEntry_push fun q x => ?_
        rw [htrack, StagingState.track_holds]
        simp [c.unpaused]
      refine ⟨⟨fun x hx => ?_, h.cached⟩, ?_⟩
      · rw [htrack, StagingState.track_trackedThreads, Function.update_self] at hx
        exact (Option.some.inj hx).symm
      · unfold Kept
        have hnew : a'.state.trackedThreads c.key ≠ none := by
          rw [htrack, StagingState.track_trackedThreads, Function.update_self]
          simp
        have hqueued : c.key ∈ a'.state.queuedThreads ↔ c.key ∈ a.state.queuedThreads := by
          rw [htrack, StagingState.track_queuedThreads]
        have hbacked : c.Backed a' ↔ c.Backed a := Iff.rfl
        rw [hentry, hqueued, hbacked]
        simp only [hnew, hkey, ne_eq, not_false_eq_true, forall_const]
        constructor
        · rintro (hmem | (hheld | hscheduled) | hback)
          · exact Or.inr (Or.inl hmem)
          · exact Or.inr (Or.inr (Or.inl hheld))
          · exact Or.inl hscheduled
          · exact Or.inr (Or.inr (Or.inr hback))
        · rintro (hscheduled | hmem | hheld | hback)
          · exact Or.inr (Or.inl (Or.inr hscheduled))
          · exact Or.inl hmem
          · exact Or.inr (Or.inl (Or.inl hheld))
          · exact Or.inr (Or.inr hback)
  · have hsame := StagingState.handleAccountUpdate_of_ne e accepts (Ne.symm hkey) a.state
    refine ⟨h.refill hsame.tracked (Or.inl rfl), ?_⟩
    have hiff : c.Kept a' ↔ c.Kept a := c.kept_congr hsame Iff.rfl
    simp [hiff, hkept, hkey]

theorem kept_completed_iff {c : ChainThread e} {a : StagingActor e Q} (h : c.Settled a)
    (hkept : c.Kept a) (k : Pubkey) (reason : CompletionReason) :
    c.Settled (a.threadCompleted k reason) ∧ (c.Kept (a.threadCompleted k reason) ↔
      (k = c.key → a.state.trackedThreads c.key ≠ none → c.HasEntry a.state ∨ c.Backed a ∨
        (reason = .skipped ∧ (a.cache c.key).isSome ∧
          Staging.scheduleThread c.key c.thread ≠ .mismatched))) := by
  by_cases hkey : k = c.key
  · rw [hkey]
    have hcached : a.cachedThread c.key = (a.cache c.key).map fun _ => c.thread := by
      unfold StagingActor.cachedThread AccountCache.get
      cases hentry : a.cache c.key with
      | none => rfl
      | some entry => simp [(h.cached entry hentry).1, c.tryDeserialize]
    rcases a.threadCompleted_cases c.key reason with ⟨hnone, heq⟩ | ⟨t, rfl, ht, heq⟩
    · have hgone : ¬ (reason = .skipped ∧ (a.cache c.key).isSome) := by
        rintro ⟨rfl, hsome⟩
        rw [hcached] at hnone
        simp_all
      rw [heq]
      refine ⟨⟨h.tracked, h.cached⟩, ?_⟩
      unfold Kept
      simp only [Finset.mem_erase, ne_eq, not_true, false_and, false_or, true_implies]
      refine forall_congr' fun _ => ⟨?_, ?_⟩
      · rintro (hheld | hback)
        · exact Or.inl hheld
        · exact Or.inr (Or.inl hback)
      · rintro (hheld | hback | ⟨hskipped, hsome, -⟩)
        · exact Or.inl hheld
        · exact Or.inr hback
        · exact absurd ⟨hskipped, hsome⟩ hgone
    · rw [hcached] at ht
      obtain ⟨entry, hentry, rfl⟩ := Option.map_eq_some_iff.mp ht
      have hpush : c.HasEntry ({ a.state with
          queuedThreads := a.state.queuedThreads.erase c.key }.scheduleThread c.key c.thread) ↔
          c.HasEntry a.state ∨ Staging.scheduleThread c.key c.thread ≠ .mismatched :=
        c.hasEntry_push fun q x => StagingState.scheduleThread_holds _ c.key c.thread q x
      rw [heq]
      refine ⟨⟨?_, h.cached⟩, ?_⟩
      · rw [StagingState.scheduleThread_trackedThreads]
        exact h.tracked
      · unfold Kept
        rw [hpush]
        simp only [StagingState.scheduleThread_trackedThreads,
          StagingState.scheduleThread_queuedThreads, Finset.mem_erase, ne_eq, not_true, false_and,
          false_or, hentry, Option.isSome_some, true_and, true_implies]
        refine forall_congr' fun _ => ⟨?_, ?_⟩
        · rintro ((hheld | hscheduled) | hback)
          · exact Or.inl hheld
          · exact Or.inr (Or.inr hscheduled)
          · exact Or.inr (Or.inl hback)
        · rintro (hheld | hback | hscheduled)
          · exact Or.inl (Or.inl hheld)
          · exact Or.inr hback
          · exact Or.inl (Or.inr hscheduled)
  · have hsame : StagingState.SameFor c.key a.state (a.threadCompleted k reason).state ∧
        (a.threadCompleted k reason).cache = a.cache ∧
        (a.threadCompleted k reason).evictions = a.evictions := by
      have herase := StagingState.erase_of_ne (Ne.symm hkey) a.state
      rcases a.threadCompleted_cases k reason with ⟨-, heq⟩ | ⟨t, -, -, heq⟩
      · rw [heq]
        exact ⟨herase, rfl, rfl⟩
      · rw [heq]
        exact ⟨herase.trans (StagingState.scheduleThread_of_ne (Ne.symm hkey) _ t), rfl, rfl⟩
    obtain ⟨hstate, hcache, hevictions⟩ := hsame
    have hbacked : c.Backed (a.threadCompleted k reason) ↔ c.Backed a := by
      rw [Backed, Backed, hcache, hevictions]
    refine ⟨h.refill hstate.tracked (Or.inl (by rw [hcache])), ?_⟩
    rw [c.kept_congr hstate hbacked]
    simp [hkept, hkey]

/-! ## Runs of the system -/

/-- What concerns the thread comes from its data, and it is not lost. -/
structure NotLost (c : ChainThread e) (s : System e Q) : Prop where
  settled : c.Settled s.actor
  kept : c.Kept s.actor

/-- A step of the processor only reads the thread. -/
theorem NotLost.handled {c : ChainThread e} {s : System e Q} (h : c.NotLost s)
    {rpc : AccountCache.Rpc} (hrpc : rpc.Serves c.key c.data) (message : ProcessorMessage)
    (gone : Finset Pubkey) (inbox : List ProcessorMessage) :
    c.NotLost { s with pool := s.pool.handled rpc message gone, inbox := inbox } := by
  have hcache : c.Refilled s.pool.cache (s.pool.handled rpc message gone).cache := by
    rcases s.pool.handled_cache rpc message gone with hsame | ⟨key, hfetched⟩
    · exact Or.inl (by rw [hsame])
    · rw [hfetched]
      exact c.refilled_fetch hrpc s.pool.cache key
  exact ⟨h.settled.refill rfl hcache, h.kept.refill h.settled rfl hcache rfl⟩

theorem NotLost.without_iff {c : ChainThread e} {s : System e Q} (h : c.NotLost s)
    (key : Pubkey) : c.NotLost (s.without key) ↔ (key = c.key →
      s.staging.trackedThreads c.key ≠ none → c.key ∈ s.staging.queuedThreads ∨
        c.HasEntry s.staging ∨ c.key ∈ s.evictions) := by
  by_cases hkey : key = c.key
  · rw [hkey]
    have hgone : (s.without c.key).actor.cache c.key = none := Function.update_self ..
    have hsettled : c.Settled (s.without c.key).actor :=
      ⟨h.settled.tracked, fun entry hentry => absurd (hgone.symm.trans hentry) (by simp)⟩
    have hbacked : c.Backed (s.without c.key).actor ↔ c.key ∈ s.evictions := by
      unfold Backed
      rw [hgone]
      simp [System.actor, System.without]
    constructor
    · intro hlost _ htracked
      have hkept := hlost.kept htracked
      rw [hbacked] at hkept
      exact hkept
    · intro hkept
      refine ⟨hsettled, fun htracked => ?_⟩
      rw [hbacked]
      exact hkept rfl htracked
  · have hsame : (s.without key).actor.cache c.key = s.actor.cache c.key :=
      Function.update_of_ne (Ne.symm hkey) _ _
    have hnotLost : c.NotLost (s.without key) :=
      ⟨h.settled.refill rfl (Or.inl hsame), h.kept.refill h.settled rfl (Or.inl hsame) rfl⟩
    simp [hnotLost, hkey]

/-- An entry that expires is refetched. -/
theorem NotLost.expired {c : ChainThread e} {s : System e Q} (h : c.NotLost s) (key : Pubkey) :
    c.NotLost { s.without key with evictions := s.evictions ++ [key] } := by
  by_cases hkey : c.key = key
  · have hgone : (s.without key).pool.cache c.key = none := by
      rw [hkey]
      exact Function.update_self ..
    refine ⟨⟨h.settled.tracked, fun entry hentry => absurd (hgone.symm.trans hentry) (by simp)⟩,
      fun _ => Or.inr (Or.inr (Or.inr ?_))⟩
    exact List.mem_append_right _ (by simp [hkey])
  · have hsame : (s.without key).pool.cache c.key = s.pool.cache c.key :=
      Function.update_of_ne hkey _ _
    refine ⟨h.settled.refill rfl (Or.inl hsame), fun htracked => ?_⟩
    rcases h.kept htracked with hqueued | hentry | ⟨entry, hentry, hexpires⟩ | hwaiting
    · exact Or.inl hqueued
    · exact Or.inr (Or.inl hentry)
    · exact Or.inr (Or.inr (Or.inl ⟨entry, hsame.trans hentry, hexpires⟩))
    · exact Or.inr (Or.inr (Or.inr (List.mem_append_left _ hwaiting)))

/-- The step lemma: the condition decides whether the thread is lost. -/
theorem notLost_step_iff {c : ChainThread e} {s t : System e Q} {ev : SystemEvent}
    (h : c.NotLost s) (hstep : Guarded System.Step (fun _ ev => c.Unchanging ev) s ev t) :
    c.NotLost t ↔ c.Keeps s ev := by
  obtain ⟨hunchanging, hstep⟩ := hstep
  cases ev with
  | terminates k =>
    obtain ⟨-, rfl⟩ := System.step_terminates hstep
    exact ⟨fun _ => trivial, fun _ => ⟨h.settled, h.kept⟩⟩
  | processes rpc gone =>
    obtain ⟨message, rest, -, -, rfl⟩ := System.step_processes hstep
    exact ⟨fun _ => trivial, fun _ => h.handled hunchanging message gone rest⟩
  | reports rpc result gone =>
    obtain ⟨-, -, rfl⟩ := System.step_reports hstep
    exact ⟨fun _ => trivial, fun _ => h.handled hunchanging _ gone s.inbox⟩
  | caches key data slot =>
    obtain rfl := Option.some.inj hstep
    have hcache := c.refilled_putIfNewer hunchanging s.pool.cache slot
    exact ⟨fun _ => trivial, fun _ =>
      ⟨h.settled.refill rfl hcache, h.kept.refill h.settled rfl hcache rfl⟩⟩
  | evicts key =>
    obtain rfl := Option.some.inj hstep
    exact h.without_iff key
  | expires key =>
    obtain ⟨-, rfl⟩ := System.step_expires hstep
    exact ⟨fun _ => trivial, fun _ => h.expired key⟩
  | answers =>
    obtain ⟨k, reason, rest, hmessages, rfl⟩ := System.step_answers hstep
    have hiff := kept_completed_iff h.settled h.kept k reason
    constructor
    · intro hlost reason' rest' hmessages' htracked
      rw [hmessages, List.cons.injEq, StagingMessage.threadCompleted.injEq] at hmessages'
      obtain ⟨⟨rfl, rfl⟩, -⟩ := hmessages'
      exact hiff.2.mp hlost.kept rfl htracked
    · intro hkeeps
      refine ⟨hiff.1, hiff.2.mpr fun hkey htracked => ?_⟩
      exact hkeeps reason rest (hkey ▸ hmessages) htracked
  | arrives rpc accepts message =>
    obtain ⟨a, effects, hhandled, rfl, hnot⟩ := System.step_arrives hstep
    cases message with
    | shutdown => exact absurd hhandled (by simp [StagingActor.handle])
    | threadCompleted k reason => exact absurd rfl (hnot k reason)
    | queryStatus =>
      obtain ⟨rfl, -⟩ := Prod.mk.inj (Option.some.inj hhandled)
      exact ⟨fun _ => trivial, fun _ => ⟨h.settled, h.kept⟩⟩
    | setProcessorRef =>
      obtain ⟨rfl, -⟩ := Prod.mk.inj (Option.some.inj hhandled)
      exact ⟨fun _ => trivial, fun _ =>
        ⟨⟨h.settled.tracked, h.settled.cached⟩, h.kept⟩⟩
    | accountUpdate update =>
      obtain ⟨rfl, -⟩ := Prod.mk.inj (Option.some.inj hhandled)
      have hiff := kept_update_iff h.settled h.kept accepts hunchanging
      exact ⟨fun hlost => hiff.2.mp hlost.kept, fun hkeeps => ⟨hiff.1, hiff.2.mpr hkeeps⟩⟩
    | clockTick clock =>
      have hticked : s.actor.handleClockTick rpc accepts clock = (a, effects) :=
        Option.some.inj hhandled
      rcases le_or_gt clock.slot s.staging.lastProcessedSlot with hstale | hfresh
      · rw [StagingActor.handleClockTick_of_le rpc accepts hstale] at hticked
        obtain ⟨rfl, -⟩ := Prod.mk.inj hticked
        exact ⟨fun _ hfresh => absurd hfresh (not_lt.mpr hstale), fun _ => ⟨h.settled, h.kept⟩⟩
      · rw [StagingActor.handleClockTick_of_lt rpc accepts hfresh] at hticked
        obtain ⟨rfl, -⟩ := Prod.mk.inj hticked
        have hprepared := Settled.prepareTick hunchanging h.settled clock
        have hiff := hprepared.kept_checked_iff accepts clock
        constructor
        · exact fun hlost _ => hiff.mp hlost.kept
        · exact fun hkeeps => ⟨⟨hprepared.tracked, hprepared.cached⟩, hiff.mpr (hkeeps hfresh)⟩

/-- For every thread, every state in which it is not lost and every run in which its account
does not change: the thread is kept throughout the run if and only if every step keeps it. -/
theorem kept_throughout_iff (c : ChainThread e) {s u : System e Q} {events : List SystemEvent}
    (h : c.NotLost s) :
    Run (fun s ev t => Guarded System.Step (fun _ ev => c.Unchanging ev) s ev t ∧ c.NotLost t)
        s events u ↔
      Run (Guarded (Guarded System.Step fun _ ev => c.Unchanging ev) c.Keeps) s events u :=
  Run.kept_iff (fun _ _ _ hs hstep => notLost_step_iff hs hstep) h

/-! ## A thread with a slot trigger -/

/-- Thread 1 is due at slot 1 and has not been executed. -/
def slotThread : ChainThread stagingEnv where
  key := 1
  data := [0, 0, 0, 0, 1, 0, 1, 0]
  thread := { ThreadProgram.sampleThread (.slot 1) [0] with schedule := .block 0 1 }
  isThread := by decide +kernel
  unpaused := rfl
  hasMoment := by simp [HasMoment, ThreadProgram.sampleThread]

theorem silentRpc_serves (key : Pubkey) (data : List UInt8) : Pool.silentRpc.Serves key data := by
  intro encoded found h
  exact absurd h (by simp [Pool.silentRpc])

/-- The thread is found and handed over at slot 1. -/
def handOver : List SystemEvent :=
  [sampleArrival .setProcessorRef, sampleArrival (.accountUpdate (sampleUpdate 1 1 0 1 0 1)),
    sampleArrival (.clockTick ⟨1, 0, 20⟩)]

theorem slotThread_notLost :
    slotThread.NotLost (System.start (fun _ => none) 2 : System stagingEnv SampleQueue) :=
  ⟨⟨fun _ hx => absurd hx (by simp [System.start, System.actor, StagingActor.start]),
    fun _ hx => absurd hx (by simp [System.start, System.actor, Pool.start])⟩,
    fun htracked => absurd rfl htracked⟩

theorem handed_over_thread_is_kept :
    ∃ u : System stagingEnv SampleQueue, 1 ∈ u.staging.queuedThreads ∧
      Run (fun s ev t => Guarded System.Step (fun _ ev => slotThread.Unchanging ev) s ev t ∧
        slotThread.NotLost t) (System.start (fun _ => none) 2) handOver u := by
  have hrun : ∃ u : System stagingEnv SampleQueue, 1 ∈ u.staging.queuedThreads ∧
      Run (Guarded (Guarded System.Step fun _ ev => slotThread.Unchanging ev) slotThread.Keeps)
        (System.start (fun _ => none) 2) handOver u := by
    refine ⟨_, ?_, Run.cons ⟨trivial, trivial, rfl⟩
      (Run.cons ⟨fun _ _ => Or.inl (by decide +kernel), fun _ => rfl, rfl⟩
        (Run.cons ⟨fun _ _ => Or.inr (Or.inl ⟨.slot, ⟨1, 1, 0⟩, ?_, rfl, rfl, fun _ => ⟨rfl, rfl⟩⟩),
          fun _ => silentRpc_serves _ _, rfl⟩ (Run.nil _)))⟩
    · decide +kernel
    · decide +kernel
  obtain ⟨u, hqueued, hguarded⟩ := hrun
  exact ⟨u, hqueued, (slotThread.kept_throughout_iff slotThread_notLost).mpr hguarded⟩

/-- The thread is cached and handed over, its execution fails, and staging is told. -/
def failedExecution : List SystemEvent :=
  .caches 1 slotThread.data 1 :: handOver ++
    [.processes Pool.silentRpc ∅,
      .reports Pool.silentRpc ⟨1, false, false, some "simulation failed", 0⟩ ∅, .answers]

/-- Staging still tracks the thread, but it is in no queue and with no worker, and its cache
entry never expires. -/
theorem failed_execution_is_lost :
    slotThread.NotLost (System.start (fun _ => none) 2 : System stagingEnv SampleQueue) ∧
    ∃ u : System stagingEnv SampleQueue,
      Run (Guarded System.Step fun _ ev => slotThread.Unchanging ev)
        (System.start (fun _ => none) 2) failedExecution u ∧
      u.staging.trackedThreads 1 = some ⟨0, .block 0 1, false⟩ ∧ ¬ slotThread.Kept u.actor := by
  have hevaluated : ∃ u ∈ failedExecution.foldlM System.step
      (System.start (fun _ => none) 2 : System stagingEnv SampleQueue),
      u.staging.trackedThreads 1 = some ⟨0, .block 0 1, false⟩ ∧ 1 ∉ u.staging.queuedThreads ∧
        MinHeap.drain (u.staging.queue .timestamp) = [] ∧
        MinHeap.drain (u.staging.queue .slot) = [] ∧
        MinHeap.drain (u.staging.queue .epoch) = [] ∧
        (u.pool.cache 1).map CachedAccount.triggerType = some .block ∧ u.evictions = [] := by
    decide +kernel
  obtain ⟨u, hu, htracked, hqueued, htime, hslot, hepoch, hcached, hevictions⟩ := hevaluated
  refine ⟨slotThread_notLost, u, Run.of_forall ?_ hu, htracked, fun hkept => ?_⟩
  · intro ev hev
    simp only [failedExecution, handOver, sampleArrival, List.cons_append, List.nil_append,
      List.mem_cons, List.not_mem_nil, or_false] at hev
    rcases hev with rfl | rfl | rfl | rfl | rfl | rfl | rfl
    · exact fun _ => rfl
    · exact trivial
    · exact fun _ => rfl
    · exact fun _ => silentRpc_serves _ _
    · exact silentRpc_serves _ _
    · exact silentRpc_serves _ _
    · exact trivial
  · have hknown : u.actor.state.trackedThreads slotThread.key ≠ none := fun hnone =>
      absurd (htracked.symm.trans hnone) (by simp)
    rcases hkept hknown with hmem | ⟨q, x, hholds, -⟩ | ⟨entry, hentry, hexpires⟩ | hwaiting
    · exact hqueued hmem
    · have hempty : MinHeap.drain (u.staging.queue q) = [] := by
        cases q with
        | timestamp => exact htime
        | slot => exact hslot
        | epoch => exact hepoch
      have hmem : x ∈ MinHeap.drain (u.staging.queue q) := hholds
      rw [hempty] at hmem
      exact absurd hmem (List.not_mem_nil)
    · have htype : entry.triggerType = .block := by
        have hsome : (u.pool.cache 1).map CachedAccount.triggerType = some entry.triggerType :=
          congrArg _ hentry
        exact Option.some.inj (hsome.symm.trans hcached)
      rw [htype] at hexpires
      exact (CacheTriggerType.dated_iff_expires _).mpr hexpires
    · have hmem : slotThread.key ∈ u.evictions := hwaiting
      rw [hevictions] at hmem
      exact absurd hmem (List.not_mem_nil)

end ChainThread

end Antegen.Client
