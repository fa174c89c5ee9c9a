import Antegen.AccountCache
import Antegen.Messages
import Antegen.Transition

/-!
# The processor and its workers

The processor queues the threads that staging hands over and spawns one worker actor
for each, as long as its count of permits lasts. A handler that is about to spawn first
acquires a permit of the semaphore. The permits are held by the worker actors and come
back when an actor has terminated, which is later than the report that lets the
processor count its permit as free. Here a message is handled in one step, together
with the set of actors that terminate meanwhile; the name of an actor is taken until
it has terminated.
-/
namespace Antegen.Client

open Transition

/-- Why the processor stops. -/
inductive ProcessorError
  | notifyStaging
  | spawnWorker (threadPubkey : Pubkey)
  | shutdown
  deriving DecidableEq, Repr

structure ProcessorState where
  pendingQueue : List ReadyThread
  activeWorkers : Finset Pubkey
  availablePermits : ℕ
  deriving DecidableEq

/-- The processor and what it works on. `registered` are the threads whose worker actor has
not terminated, `owed` those whose worker has not reported yet, and `cancelled` those whose
worker was told to stop. -/
structure Pool (e : CacheEnv) where
  processor : ProcessorState
  cache : AccountCache e
  staging : Mailbox StagingMessage
  maxConcurrentThreads : ℕ
  registered : Finset Pubkey
  owed : Multiset Pubkey
  cancelled : Finset Pubkey
  failed : Option ProcessorError

namespace Pool

variable {e : CacheEnv}

/-- `pre_start`. -/
def start (cache : AccountCache e) (staging : Mailbox StagingMessage)
    (maxConcurrentThreads : ℕ) : Pool e where
  processor := ⟨[], ∅, maxConcurrentThreads⟩
  cache := cache
  staging := staging
  maxConcurrentThreads := maxConcurrentThreads
  registered := ∅
  owed := 0
  cancelled := ∅
  failed := none

/-- The thread that a ready thread stands for, unless it cannot be read or has moved on.
A miss in the cache is looked up at the node. -/
def lookup (rpc : AccountCache.Rpc) (cache : AccountCache e) (ready : ReadyThread) :
    Option Thread × AccountCache e :=
  let matching (t : Thread) : Option Thread :=
    if t.execCount ≠ ready.execCount then none else some t
  match cache.get ready.threadPubkey with
  | some cached => ((e.tryDeserialize cached.data).bind matching, cache)
  | none =>
    match cache.getThreadOrFetch rpc ready.threadPubkey with
    | (.ok t, cache) => (matching t, cache)
    | (.error _, cache) => (none, cache)

/-- A notice to staging whose failure is ignored. -/
def notify (p : Pool e) (message : StagingMessage) : Pool e :=
  { p with staging := (p.staging.send message).getD p.staging }

/-- `try_spawn_next_worker` up to the semaphore, with the thread to spawn a worker for. -/
def trySpawnNextWorker (rpc : AccountCache.Rpc) (p : Pool e) :
    Pool e × Option (ReadyThread × Thread) :=
  if p.processor.availablePermits = 0 then (p, none)
  else match p.processor.pendingQueue with
    | [] => (p, none)
    | ready :: rest =>
      if ready.threadPubkey ∈ p.processor.activeWorkers then
        ({ p with processor := { p.processor with pendingQueue := rest ++ [ready] } }, none)
      else
        let (thread, cache) := lookup rpc p.cache ready
        let p := { p with
          processor := { p.processor with pendingQueue := rest }, cache := cache }
        match thread with
        | some t => (p, some (ready, t))
        | none => (p.notify (.threadCompleted ready.threadPubkey .executed), none)

/-- The rest of `try_spawn_next_worker`, once it has its permit. -/
def spawn (p : Pool e) (ready : ReadyThread) : Pool e :=
  let processor := { p.processor with availablePermits := p.processor.availablePermits - 1 }
  if ready.threadPubkey ∈ p.registered then
    { p with processor := processor, failed := some (.spawnWorker ready.threadPubkey) }
  else
    { p with
      processor := { processor with
        activeWorkers := insert ready.threadPubkey processor.activeWorkers }
      registered := insert ready.threadPubkey p.registered
      owed := ready.threadPubkey ::ₘ p.owed }

/-- A text occurs in another one. -/
def textContains (text part : String) : Bool := decide (part.toList <:+: text.toList)

/-- The result says that the load balancer left the thread to someone else. -/
def isLbSkip (result : ExecutionResult) : Bool :=
  match result.error with
  | some error => textContains error "load balancer" || textContains error "At capacity"
  | none => false

def completionReason (result : ExecutionResult) : CompletionReason :=
  if isLbSkip result then .skipped else .executed

def enqueued (p : Pool e) (ready : ReadyThread) : Pool e :=
  { p with processor := { p.processor with
    pendingQueue := p.processor.pendingQueue ++ [ready] } }

/-- The worker of the thread is no longer active and its permit counts as free. -/
def reported (p : Pool e) (threadPubkey : Pubkey) : Pool e :=
  { p with
    processor := { p.processor with
      activeWorkers := p.processor.activeWorkers.erase threadPubkey
      availablePermits := p.processor.availablePermits + 1 }
    owed := p.owed.erase threadPubkey
    cancelled := p.cancelled.erase threadPubkey }

/-- Handling of a message up to the semaphore. -/
def handle (rpc : AccountCache.Rpc) (p : Pool e) :
    ProcessorMessage → Pool e × Option (ReadyThread × Thread)
  | .processReady ready => trySpawnNextWorker rpc (p.enqueued ready)
  | .cancelThread threadPubkey =>
    ({ p with
      processor := { p.processor with
        pendingQueue := p.processor.pendingQueue.filter (·.threadPubkey ≠ threadPubkey) }
      cancelled := if threadPubkey ∈ p.processor.activeWorkers then
        insert threadPubkey p.cancelled else p.cancelled }, none)
  | .workerCompleted result =>
    let p := p.reported result.threadPubkey
    match p.staging.send (.threadCompleted result.threadPubkey (completionReason result)) with
    | some staging => trySpawnNextWorker rpc { p with staging := staging }
    | none => ({ p with failed := some .notifyStaging }, none)
  | .queryStatus => (p, none)
  | .shutdown => ({ p with failed := some .shutdown }, none)

/-- The names that are still taken when some actors have terminated. -/
def without (p : Pool e) (gone : Finset Pubkey) : Pool e :=
  { p with registered := p.registered \ gone }

/-- The rest of a handler, if the actors `gone` terminate until it is through. -/
def finish (gone : Finset Pubkey) : Pool e × Option (ReadyThread × Thread) → Pool e
  | (p, none) => p.without gone
  | (p, some (ready, _)) => (p.without gone).spawn ready

def handled (rpc : AccountCache.Rpc) (p : Pool e) (message : ProcessorMessage)
    (gone : Finset Pubkey) : Pool e :=
  finish gone (p.handle rpc message)

end Pool

/-- What happens to the processor: a message, the end of a worker actor, a report of it to the
mailbox of staging handled there, or another writer of the cache. -/
inductive PoolEvent (e : CacheEnv)
  | message (rpc : AccountCache.Rpc) (message : ProcessorMessage) (gone : Finset Pubkey)
  | terminated (threadPubkey : Pubkey)
  | elsewhere (cache : AccountCache e) (staging : Mailbox StagingMessage)

namespace Pool

variable {e : CacheEnv}

/-- A spawning handler ends once the semaphore has a permit for it. -/
def step (p : Pool e) : PoolEvent e → Option (Pool e)
  | .message rpc message gone =>
    if p.failed = none ∧ gone ⊆ p.registered ∧ ((p.handle rpc message).2.isSome →
        (p.registered \ gone).card < p.maxConcurrentThreads)
    then some (p.handled rpc message gone) else none
  | .terminated threadPubkey =>
    if threadPubkey ∈ p.registered then some (p.without {threadPubkey}) else none
  | .elsewhere cache staging => some { p with cache := cache, staging := staging }

def Step (p : Pool e) (ev : PoolEvent e) (p' : Pool e) : Prop := p.step ev = some p'

theorem step_message {p p' : Pool e} {rpc : AccountCache.Rpc} {message : ProcessorMessage}
    {gone : Finset Pubkey} (h : Step p (.message rpc message gone) p') :
    p.failed = none ∧ p' = p.handled rpc message gone := by
  simp only [Step, step] at h
  split_ifs at h with henabled
  exact ⟨henabled.1, (Option.some.inj h).symm⟩

theorem step_terminated {p p' : Pool e} {threadPubkey : Pubkey}
    (h : Step p (.terminated threadPubkey) p') : p' = p.without {threadPubkey} := by
  simp only [Step, step] at h
  split_ifs at h
  exact (Option.some.inj h).symm

theorem step_elsewhere {p p' : Pool e} {cache : AccountCache e} {staging : Mailbox StagingMessage}
    (h : Step p (.elsewhere cache staging) p') :
    p' = { p with cache := cache, staging := staging } :=
  (Option.some.inj h).symm

/-- Every worker reports once: a report comes from a worker that has not reported. -/
def ReportsOnce (p : Pool e) : PoolEvent e → Prop
  | .message _ (.workerCompleted result) _ => result.threadPubkey ∈ p.owed
  | _ => True

/-- A worker that is spawned finds its name free. -/
def SpawnsSucceed (p : Pool e) : PoolEvent e → Prop
  | .message rpc message gone =>
      ∀ spawned ∈ (p.handle rpc message).2, spawned.1.threadPubkey ∉ p.registered \ gone
  | _ => True

instance (p : Pool e) (ev : PoolEvent e) : Decidable (ReportsOnce p ev) := by
  unfold ReportsOnce
  split <;> infer_instance

instance (p : Pool e) (ev : PoolEvent e) : Decidable (SpawnsSucceed p ev) := by
  unfold SpawnsSucceed
  split <;> infer_instance

/-! ## What a handler can do -/

/-- Every exit of `try_spawn_next_worker` before the semaphore. -/
theorem trySpawnNextWorker_cases (rpc : AccountCache.Rpc) (p : Pool e) :
    (p.processor.availablePermits = 0 ∧ trySpawnNextWorker rpc p = (p, none)) ∨
    (p.processor.pendingQueue = [] ∧ trySpawnNextWorker rpc p = (p, none)) ∨
    (∃ ready rest, 0 < p.processor.availablePermits ∧ p.processor.pendingQueue = ready :: rest ∧
      ready.threadPubkey ∈ p.processor.activeWorkers ∧ trySpawnNextWorker rpc p =
        ({ p with processor := { p.processor with pendingQueue := rest ++ [ready] } }, none)) ∨
    (∃ ready rest, 0 < p.processor.availablePermits ∧
      p.processor.pendingQueue = ready :: rest ∧
      ready.threadPubkey ∉ p.processor.activeWorkers ∧ (lookup rpc p.cache ready).1 = none ∧
      trySpawnNextWorker rpc p = (notify { p with
        processor := { p.processor with pendingQueue := rest }
        cache := (lookup rpc p.cache ready).2 }
          (.threadCompleted ready.threadPubkey .executed), none)) ∨
    (∃ ready rest t, 0 < p.processor.availablePermits ∧
      p.processor.pendingQueue = ready :: rest ∧
      ready.threadPubkey ∉ p.processor.activeWorkers ∧ (lookup rpc p.cache ready).1 = some t ∧
      trySpawnNextWorker rpc p = ({ p with
        processor := { p.processor with pendingQueue := rest }
        cache := (lookup rpc p.cache ready).2 }, some (ready, t))) := by
  unfold trySpawnNextWorker
  by_cases hpermits : p.processor.availablePermits = 0
  · exact Or.inl ⟨hpermits, if_pos hpermits⟩
  · rw [if_neg hpermits]
    have hpos : 0 < p.processor.availablePermits := Nat.pos_of_ne_zero hpermits
    refine Or.inr ?_
    cases hqueue : p.processor.pendingQueue with
    | nil => exact Or.inl ⟨rfl, rfl⟩
    | cons ready rest =>
      refine Or.inr ?_
      by_cases hactive : ready.threadPubkey ∈ p.processor.activeWorkers
      · exact Or.inl ⟨ready, rest, hpos, rfl, hactive, if_pos hactive⟩
      · refine Or.inr ?_
        cases hlookup : (lookup rpc p.cache ready).1 with
        | none =>
          refine Or.inl ⟨ready, rest, hpos, rfl, hactive, hlookup, ?_⟩
          simp only [if_neg hactive, hlookup]
        | some t =>
          refine Or.inr ⟨ready, rest, t, hpos, rfl, hactive, hlookup, ?_⟩
          simp only [if_neg hactive, hlookup]

/-- A worker is spawned only with a permit left, so the count does not underflow. -/
theorem trySpawnNextWorker_permits {rpc : AccountCache.Rpc} {p : Pool e} {ready : ReadyThread}
    {t : Thread} (h : (trySpawnNextWorker rpc p).2 = some (ready, t)) :
    0 < (trySpawnNextWorker rpc p).1.processor.availablePermits := by
  rcases trySpawnNextWorker_cases rpc p with ⟨-, heq⟩ | ⟨-, heq⟩ | ⟨r, rest, -, -, -, heq⟩ |
    ⟨r, rest, -, -, -, -, heq⟩ | ⟨r, rest, t', hpos, -, -, -, heq⟩
  · exact absurd h (by rw [heq]; simp)
  · exact absurd h (by rw [heq]; simp)
  · exact absurd h (by rw [heq]; simp)
  · exact absurd h (by rw [heq]; simp)
  · rw [heq]
    exact hpos

/-- A report that staging has been told of. -/
def answered (p : Pool e) (result : ExecutionResult) : Pool e :=
  { p.reported result.threadPubkey with staging := { p.staging with
    messages := p.staging.messages ++
      [.threadCompleted result.threadPubkey (completionReason result)] } }

/-- A report is passed on to staging, or the processor stops. -/
theorem handle_workerCompleted (rpc : AccountCache.Rpc) (p : Pool e) (result : ExecutionResult) :
    (p.staging.running = false ∧ p.handle rpc (.workerCompleted result) =
      ({ p.reported result.threadPubkey with failed := some .notifyStaging }, none)) ∨
    (p.staging.running = true ∧ p.handle rpc (.workerCompleted result) =
      trySpawnNextWorker rpc (p.answered result)) := by
  have hstaging : (p.reported result.threadPubkey).staging = p.staging := rfl
  cases hrunning : p.staging.running with
  | false => exact Or.inl ⟨rfl, by simp [handle, hstaging, Mailbox.send, hrunning]⟩
  | true => exact Or.inr ⟨rfl, by simp [handle, hstaging, Mailbox.send, hrunning, answered]⟩

theorem handle_permits {rpc : AccountCache.Rpc} {p : Pool e} {message : ProcessorMessage}
    {ready : ReadyThread} {t : Thread} (h : (p.handle rpc message).2 = some (ready, t)) :
    0 < (p.handle rpc message).1.processor.availablePermits := by
  cases message with
  | processReady r => exact trySpawnNextWorker_permits h
  | cancelThread threadPubkey => exact absurd h (by simp [handle])
  | queryStatus => exact absurd h (by simp [handle])
  | shutdown => exact absurd h (by simp [handle])
  | workerCompleted result =>
    rcases handle_workerCompleted rpc p result with ⟨-, heq⟩ | ⟨-, heq⟩
    · exact absurd h (by rw [heq]; simp)
    · rw [heq] at h ⊢
      exact trySpawnNextWorker_permits h

/-- A spawn under a free name. -/
theorem spawn_of_free {p : Pool e} {ready : ReadyThread} (h : ready.threadPubkey ∉ p.registered) :
    p.spawn ready = { p with
      processor := { p.processor with
        activeWorkers := insert ready.threadPubkey p.processor.activeWorkers
        availablePermits := p.processor.availablePermits - 1 }
      registered := insert ready.threadPubkey p.registered
      owed := ready.threadPubkey ::ₘ p.owed } :=
  if_neg h

/-- A spawn under a name that is taken. -/
theorem spawn_of_taken {p : Pool e} {ready : ReadyThread} (h : ready.threadPubkey ∈ p.registered) :
    (p.spawn ready).failed = some (.spawnWorker ready.threadPubkey) := by
  rw [spawn, if_pos h]

theorem finish_cache (gone : Finset Pubkey) (r : Pool e × Option (ReadyThread × Thread)) :
    (finish gone r).cache = r.1.cache := by
  obtain ⟨p, _ | ⟨ready, t⟩⟩ := r
  · rfl
  · unfold finish spawn
    dsimp only
    split_ifs <;> rfl

theorem lookup_cache (rpc : AccountCache.Rpc) (cache : AccountCache e) (ready : ReadyThread) :
    (lookup rpc cache ready).2 = cache ∨
      (lookup rpc cache ready).2 = (cache.getThreadOrFetch rpc ready.threadPubkey).2 := by
  unfold lookup
  cases cache.get ready.threadPubkey with
  | some cached => exact Or.inl rfl
  | none =>
    refine Or.inr ?_
    generalize cache.getThreadOrFetch rpc ready.threadPubkey = fetched
    obtain ⟨_ | t, cache'⟩ := fetched <;> rfl

theorem trySpawnNextWorker_cache (rpc : AccountCache.Rpc) (p : Pool e) :
    (trySpawnNextWorker rpc p).1.cache = p.cache ∨
      ∃ key, (trySpawnNextWorker rpc p).1.cache = (p.cache.getThreadOrFetch rpc key).2 := by
  rcases trySpawnNextWorker_cases rpc p with ⟨-, heq⟩ | ⟨-, heq⟩ | ⟨r, rest, -, -, -, heq⟩ |
    ⟨r, rest, -, -, -, -, heq⟩ | ⟨r, rest, t, -, -, -, -, heq⟩
  · exact Or.inl (by rw [heq])
  · exact Or.inl (by rw [heq])
  · exact Or.inl (by rw [heq])
  · rw [heq]
    exact (lookup_cache rpc p.cache r).imp id fun h => ⟨_, h⟩
  · rw [heq]
    exact (lookup_cache rpc p.cache r).imp id fun h => ⟨_, h⟩

/-- A handler leaves the cache alone, or reads one thread from the node. -/
theorem handled_cache (rpc : AccountCache.Rpc) (p : Pool e) (message : ProcessorMessage)
    (gone : Finset Pubkey) : (p.handled rpc message gone).cache = p.cache ∨
      ∃ key, (p.handled rpc message gone).cache = (p.cache.getThreadOrFetch rpc key).2 := by
  rw [handled, finish_cache]
  cases message with
  | processReady ready => exact trySpawnNextWorker_cache rpc (p.enqueued ready)
  | cancelThread threadPubkey => exact Or.inl rfl
  | queryStatus => exact Or.inl rfl
  | shutdown => exact Or.inl rfl
  | workerCompleted result =>
    rcases handle_workerCompleted rpc p result with ⟨-, heq⟩ | ⟨-, heq⟩
    · rw [heq]
      exact Or.inl rfl
    · rw [heq]
      exact trySpawnNextWorker_cache rpc (p.answered result)

/-! ## Counting workers -/

/-- The workers that have not reported are the active ones, one for each thread, and with the
permits they make up the maximum. -/
structure Balanced (n : ℕ) (p : Pool e) : Prop where
  owed : p.owed = p.processor.activeWorkers.val
  permits : p.processor.availablePermits + p.processor.activeWorkers.card = n

theorem balanced_start (cache : AccountCache e) (staging : Mailbox StagingMessage) (n : ℕ) :
    Balanced n (start cache staging n) :=
  ⟨rfl, by simp [start]⟩

/-- Spawning moves one permit to a new worker. -/
theorem Balanced.spawn {n : ℕ} {p : Pool e} (h : Balanced n p) {ready : ReadyThread}
    (hpos : 0 < p.processor.availablePermits)
    (hactive : ready.threadPubkey ∉ p.processor.activeWorkers)
    (hfree : ready.threadPubkey ∉ p.registered) : Balanced n (p.spawn ready) := by
  rw [spawn_of_free hfree]
  constructor
  · show ready.threadPubkey ::ₘ p.owed = _
    rw [h.owed, Finset.insert_val_of_notMem hactive]
  · show p.processor.availablePermits - 1 +
      (insert ready.threadPubkey p.processor.activeWorkers).card = n
    rw [Finset.card_insert_of_notMem hactive]
    have hsum := h.permits
    omega

/-- The step lemma for `try_spawn_next_worker`. -/
theorem Balanced.trySpawn {n : ℕ} {rpc : AccountCache.Rpc} {p : Pool e} (h : Balanced n p)
    {gone : Finset Pubkey} (hsucceeds : ∀ spawned ∈ (trySpawnNextWorker rpc p).2,
      spawned.1.threadPubkey ∉ p.registered \ gone) :
    Balanced n (finish gone (trySpawnNextWorker rpc p)) := by
  rcases trySpawnNextWorker_cases rpc p with ⟨-, heq⟩ | ⟨-, heq⟩ | ⟨r, rest, -, -, -, heq⟩ |
    ⟨r, rest, -, -, -, -, heq⟩ | ⟨r, rest, t, hpos, -, hactive, -, heq⟩
  · rw [heq]
    exact ⟨h.owed, h.permits⟩
  · rw [heq]
    exact ⟨h.owed, h.permits⟩
  · rw [heq]
    exact ⟨h.owed, h.permits⟩
  · rw [heq]
    exact ⟨h.owed, h.permits⟩
  · have hfree := hsucceeds (r, t) (by rw [heq]; rfl)
    rw [heq]
    refine Balanced.spawn ?_ hpos hactive hfree
    exact ⟨h.owed, h.permits⟩

theorem Balanced.step {n : ℕ} {p p' : Pool e} {ev : PoolEvent e} (h : Balanced n p)
    (hstep : Guarded Step (fun p ev => ReportsOnce p ev ∧ SpawnsSucceed p ev) p ev p') :
    Balanced n p' := by
  obtain ⟨⟨hreports, hsucceeds⟩, hstep⟩ := hstep
  cases ev with
  | terminated threadPubkey =>
    obtain rfl := step_terminated hstep
    exact ⟨h.owed, h.permits⟩
  | elsewhere cache staging =>
    obtain rfl := step_elsewhere hstep
    exact ⟨h.owed, h.permits⟩
  | message rpc message gone =>
    obtain ⟨-, rfl⟩ := step_message hstep
    cases message with
    | processReady ready =>
      refine Balanced.trySpawn ?_ hsucceeds
      exact ⟨h.owed, h.permits⟩
    | cancelThread threadPubkey => exact ⟨h.owed, h.permits⟩
    | queryStatus => exact ⟨h.owed, h.permits⟩
    | shutdown => exact ⟨h.owed, h.permits⟩
    | workerCompleted result =>
      have hmem : result.threadPubkey ∈ p.processor.activeWorkers := by
        have howed : result.threadPubkey ∈ p.owed := hreports
        rw [h.owed] at howed
        exact howed
      have hreported : Balanced n (p.reported result.threadPubkey) := by
        constructor
        · show p.owed.erase result.threadPubkey = _
          rw [h.owed]
          exact (Finset.erase_val _ _).symm
        · show p.processor.availablePermits + 1 +
            (p.processor.activeWorkers.erase result.threadPubkey).card = n
          have hcard := Finset.card_erase_add_one hmem
          have hsum := h.permits
          omega
      rcases handle_workerCompleted rpc p result with ⟨-, heq⟩ | ⟨-, heq⟩
      · rw [handled, heq]
        exact ⟨hreported.owed, hreported.permits⟩
      · rw [handled, heq]
        have hanswered : Balanced n (p.answered result) := ⟨hreported.owed, hreported.permits⟩
        refine hanswered.trySpawn fun spawned hspawned => hsucceeds spawned ?_
        rw [heq]
        exact hspawned

/-- For every maximum and every run in which each worker reports once and every spawn
succeeds: permits and active workers add up to the maximum, permits stay within it, a
worker is spawned only with a permit left, and no thread has two workers. -/
theorem permits_and_workers {cache : AccountCache e} {staging : Mailbox StagingMessage} {n : ℕ}
    {events : List (PoolEvent e)} {p : Pool e}
    (h : Run (Guarded Step fun p ev => ReportsOnce p ev ∧ SpawnsSucceed p ev)
      (start cache staging n) events p) :
    p.processor.availablePermits + p.processor.activeWorkers.card = n ∧
      p.processor.availablePermits ≤ n ∧
      (∀ rpc message ready t, (p.handle rpc message).2 = some (ready, t) →
        0 < (p.handle rpc message).1.processor.availablePermits) ∧
      p.owed = p.processor.activeWorkers.val ∧ ∀ thread, p.owed.count thread ≤ 1 := by
  have hbalanced : Balanced n p :=
    h.invariant (fun u ev u' hu hstep => hu.step hstep) (balanced_start cache staging n)
  have hsum := hbalanced.permits
  refine ⟨hsum, by omega, fun rpc message ready t hready => ?_, hbalanced.owed, fun thread => ?_⟩
  · exact handle_permits hready
  · rw [hbalanced.owed]
    exact Multiset.nodup_iff_count_le_one.mp p.processor.activeWorkers.nodup thread

/-! ## A small pool -/

/-- A node that does not answer. -/
def silentRpc : AccountCache.Rpc := ⟨fun _ => .error (), fun _ => none⟩

/-- The threads with the given keys are cached, each without an execution. -/
def samplePool (keys : List Pubkey) (n : ℕ) : Pool AccountCache.threadEnv :=
  start (keys.foldl (fun cache key => (cache.putIfNewer key [0, 0, 10, 0] 1).1) fun _ => none)
    ⟨true, []⟩ n

def sampleReady (key : Pubkey) : ReadyThread := ⟨key, 0, false, 0⟩

def sampleSuccess (key : Pubkey) : ExecutionResult := ⟨key, true, false, none, 0⟩

/-- The processor after events, of which none is out of order. -/
def runAll (p : Pool e) (events : List (PoolEvent e)) : Option (Pool e) :=
  events.foldlM (fun p ev =>
    if ReportsOnce p ev ∧ SpawnsSucceed p ev then p.step ev else none) p

/-- Workers for the threads 1 and 2 are spawned, and the one for thread 1 reports. -/
def twoWorkers : List (PoolEvent AccountCache.threadEnv) :=
  [.message silentRpc (.processReady (sampleReady 1)) ∅,
    .message silentRpc (.processReady (sampleReady 2)) ∅,
    .message silentRpc (.workerCompleted (sampleSuccess 1)) {1}]

theorem permits_of_two_workers :
    ∃ p, Run (Guarded Step fun p ev => ReportsOnce p ev ∧ SpawnsSucceed p ev)
        (samplePool [1, 2] 2) twoWorkers p ∧ p.processor.activeWorkers = {2} ∧
      p.processor.availablePermits + p.processor.activeWorkers.card = 2 := by
  have hevaluated : (runAll (samplePool [1, 2] 2) twoWorkers).map
      (fun p => p.processor.activeWorkers) = some {2} := by
    decide +kernel
  obtain ⟨p, hp, hactive⟩ := Option.map_eq_some_iff.mp hevaluated
  have hrun := Run.of_foldlM hp
  exact ⟨p, hrun, hactive, (permits_and_workers hrun).1⟩

end Pool

end Antegen.Client
