import Antegen.Processor
import Antegen.StagingActor

/-!
# Staging and processor together

Staging sends threads to the processor and the processor sends them back when they are
through. Between each pair of actors messages keep their order. Messages of datasources
reach staging at any time, reports of workers reach the processor at any time, and both
actors share the cache with the datasources. Each step handles one message, or changes the
cache: an entry is written, expires, or is evicted for want of space.
-/
namespace Antegen.Client

open Transition Staging

/-- The actors and the messages between them: `inbox` is on its way to the processor, and the
mailbox of staging in `pool` holds what is on its way back. `recalled` remembers the threads
whose last hand-over was followed by a cancellation. -/
structure System (e : CacheEnv) (Q : Type) where
  staging : StagingState Q
  evictions : List Pubkey
  pool : Pool e
  inbox : List ProcessorMessage
  recalled : Finset Pubkey

inductive SystemEvent
  | arrives (rpc : ℕ → AccountCache.Rpc) (accepts : Pubkey → Bool) (message : StagingMessage)
  | answers
  | processes (rpc : AccountCache.Rpc) (gone : Finset Pubkey)
  | reports (rpc : AccountCache.Rpc) (result : ExecutionResult) (gone : Finset Pubkey)
  | terminates (threadPubkey : Pubkey)
  | caches (key : Pubkey) (data : List UInt8) (slot : ℕ)
  | expires (key : Pubkey)
  | evicts (key : Pubkey)

def Effect.message : Effect → Option ProcessorMessage
  | .sent message => some message
  | _ => none

/-- A thread is recalled from its cancellation until it is handed over again. -/
def Effect.recall (recalled : Finset Pubkey) : Effect → Finset Pubkey
  | .sent (.processReady ready) => recalled.erase ready.threadPubkey
  | .sent (.cancelThread threadPubkey) => insert threadPubkey recalled
  | _ => recalled

/-- The entry has a time to live. -/
def CacheTriggerType.Expires (t : CacheTriggerType) : Prop :=
  ∃ (x : ThreadExpiry) (now : ℤ), (x.calculateTtl now t).isSome = true

/-- The time of the trigger is one that can come. -/
def CacheTriggerType.Dated : CacheTriggerType → Prop
  | .time nextTimestamp => nextTimestamp ≠ 0 ∧ nextTimestamp ≠ 2 ^ 63 - 1
  | _ => False

instance (t : CacheTriggerType) : Decidable t.Dated := by
  unfold CacheTriggerType.Dated
  split <;> infer_instance

theorem calculateTtl_isSome (x : ThreadExpiry) (now : ℤ) (t : CacheTriggerType) :
    (x.calculateTtl now t).isSome ↔ t.Dated := by
  cases t with
  | time next =>
    simp only [ThreadExpiry.calculateTtl, CacheTriggerType.Dated]
    split_ifs with hnever hlater
    · simp only [Option.isSome_none, Bool.false_eq_true, false_iff]
      tauto
    · simp only [Option.isSome_some, true_iff]
      tauto
    · simp only [Option.isSome_some, true_iff]
      tauto
  | block => simp [ThreadExpiry.calculateTtl, CacheTriggerType.Dated]
  | account => simp [ThreadExpiry.calculateTtl, CacheTriggerType.Dated]
  | unknown => simp [ThreadExpiry.calculateTtl, CacheTriggerType.Dated]

theorem CacheTriggerType.dated_iff_expires (t : CacheTriggerType) : t.Dated ↔ t.Expires := by
  constructor
  · exact fun h => ⟨⟨0, 0⟩, 0, (calculateTtl_isSome _ _ t).mpr h⟩
  · rintro ⟨x, now, h⟩
    exact (calculateTtl_isSome x now t).mp h

instance (t : CacheTriggerType) : Decidable t.Expires := decidable_of_iff _ t.dated_iff_expires

namespace System

variable {e : CacheEnv} {Q : Type}

/-- Staging as an actor with the shared cache. -/
def actor (s : System e Q) : StagingActor e Q := ⟨s.staging, s.pool.cache, s.evictions⟩

/-- The system once staging has handled a message. -/
def after (s : System e Q) (a : StagingActor e Q) (effects : List Effect) : System e Q where
  staging := a.state
  evictions := a.evictions
  pool := { s.pool with cache := a.cache }
  inbox := s.inbox ++ effects.filterMap Effect.message
  recalled := effects.foldl Effect.recall s.recalled

/-- The oldest notice of the processor has been taken out of the mailbox of staging. -/
def received (s : System e Q) (rest : List StagingMessage) : System e Q :=
  { s with pool := { s.pool with staging := { s.pool.staging with messages := rest } } }

/-- The cache without an entry. -/
def without (s : System e Q) (key : Pubkey) : System e Q :=
  { s with pool := { s.pool with cache := Function.update s.pool.cache key none } }

variable [MinHeap Q ScheduledThread.triggerValue]

def start (cache : AccountCache e) (maxConcurrentThreads : ℕ) : System e Q where
  staging := (StagingActor.start cache).state
  evictions := []
  pool := Pool.start cache ⟨true, []⟩ maxConcurrentThreads
  inbox := []
  recalled := ∅

def step (s : System e Q) : SystemEvent → Option (System e Q)
  | .arrives rpc accepts message =>
    match message with
    | .threadCompleted _ _ => none
    | message => (s.actor.handle rpc accepts message).map fun handled => s.after handled.1 handled.2
  | .answers =>
    match s.pool.staging.messages with
    | .threadCompleted threadPubkey reason :: rest =>
      some ((s.received rest).after (s.actor.threadCompleted threadPubkey reason) [])
    | _ => none
  | .processes rpc gone =>
    match s.inbox with
    | message :: rest =>
      (s.pool.step (.message rpc message gone)).map fun p => { s with pool := p, inbox := rest }
    | [] => none
  | .reports rpc result gone =>
    if result.threadPubkey ∈ s.pool.owed then
      (s.pool.step (.message rpc (.workerCompleted result) gone)).map fun p => { s with pool := p }
    else none
  | .terminates threadPubkey =>
    (s.pool.step (.terminated threadPubkey)).map fun p => { s with pool := p }
  | .caches key data slot =>
    some { s with pool := { s.pool with cache := (s.pool.cache.putIfNewer key data slot).1 } }
  | .expires key =>
    match s.pool.cache key with
    | some cached =>
      if cached.triggerType.Expires then
        some { s.without key with evictions := s.evictions ++ [key] }
      else none
    | none => none
  | .evicts key => some (s.without key)

def Step (s : System e Q) (ev : SystemEvent) (t : System e Q) : Prop := s.step ev = some t

/-! ## What a step can do -/

theorem step_arrives {s t : System e Q} {rpc : ℕ → AccountCache.Rpc} {accepts : Pubkey → Bool}
    {message : StagingMessage} (h : Step s (.arrives rpc accepts message) t) :
    ∃ a effects, s.actor.handle rpc accepts message = some (a, effects) ∧ t = s.after a effects ∧
      ∀ k reason, message ≠ .threadCompleted k reason := by
  have hmap : (∀ k reason, message ≠ .threadCompleted k reason) ∧
      (s.actor.handle rpc accepts message).map (fun handled => s.after handled.1 handled.2) =
        some t := by
    cases message with
    | threadCompleted k reason => exact absurd h (by simp [Step, step])
    | accountUpdate update => exact ⟨by simp, h⟩
    | clockTick clock => exact ⟨by simp, h⟩
    | setProcessorRef => exact ⟨by simp, h⟩
    | queryStatus => exact ⟨by simp, h⟩
    | shutdown => exact ⟨by simp, h⟩
  obtain ⟨⟨a, effects⟩, hhandled, rfl⟩ := Option.map_eq_some_iff.mp hmap.2
  exact ⟨a, effects, hhandled, rfl, hmap.1⟩

theorem step_answers {s t : System e Q} (h : Step s .answers t) :
    ∃ k reason rest, s.pool.staging.messages = .threadCompleted k reason :: rest ∧
      t = (s.received rest).after (s.actor.threadCompleted k reason) [] := by
  simp only [Step, step] at h
  split at h
  · exact ⟨_, _, _, by assumption, (Option.some.inj h).symm⟩
  · exact absurd h (by simp)

theorem step_processes {s t : System e Q} {rpc : AccountCache.Rpc} {gone : Finset Pubkey}
    (h : Step s (.processes rpc gone) t) :
    ∃ message rest, s.inbox = message :: rest ∧
      Pool.Step s.pool (.message rpc message gone) t.pool ∧
      t = { s with pool := s.pool.handled rpc message gone, inbox := rest } := by
  simp only [Step, step] at h
  cases hinbox : s.inbox with
  | nil => exact absurd h (by simp [hinbox])
  | cons message rest =>
    rw [hinbox] at h
    obtain ⟨p, hp, rfl⟩ := Option.map_eq_some_iff.mp h
    obtain ⟨-, heq⟩ := Pool.step_message hp
    exact ⟨message, rest, rfl, hp, by rw [heq]⟩

theorem step_reports {s t : System e Q} {rpc : AccountCache.Rpc} {result : ExecutionResult}
    {gone : Finset Pubkey} (h : Step s (.reports rpc result gone) t) :
    result.threadPubkey ∈ s.pool.owed ∧
      Pool.Step s.pool (.message rpc (.workerCompleted result) gone) t.pool ∧
      t = { s with pool := s.pool.handled rpc (.workerCompleted result) gone } := by
  simp only [Step, step] at h
  split_ifs at h with howed
  obtain ⟨p, hp, rfl⟩ := Option.map_eq_some_iff.mp h
  obtain ⟨-, heq⟩ := Pool.step_message hp
  exact ⟨howed, hp, by rw [heq]⟩

theorem step_terminates {s t : System e Q} {k : Pubkey} (h : Step s (.terminates k) t) :
    Pool.Step s.pool (.terminated k) t.pool ∧ t = { s with pool := s.pool.without {k} } := by
  simp only [Step, step] at h
  obtain ⟨p, hp, rfl⟩ := Option.map_eq_some_iff.mp h
  exact ⟨hp, by rw [Pool.step_terminated hp]⟩

theorem step_expires {s t : System e Q} {key : Pubkey} (h : Step s (.expires key) t) :
    (∃ cached, s.pool.cache key = some cached ∧ cached.triggerType.Expires) ∧
      t = { s.without key with evictions := s.evictions ++ [key] } := by
  simp only [Step, step] at h
  cases hkey : s.pool.cache key with
  | none => exact absurd h (by simp [hkey])
  | some cached =>
    rw [hkey] at h
    dsimp only at h
    split_ifs at h with hexpires
    exact ⟨⟨cached, rfl, hexpires⟩, (Option.some.inj h).symm⟩

end System

/-- A message that finds the processor running and no answer of the node. -/
def sampleArrival (message : StagingMessage) : SystemEvent :=
  .arrives (fun _ => Pool.silentRpc) (fun _ => true) message

end Antegen.Client
