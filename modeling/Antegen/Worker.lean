import Antegen.Executor
import Antegen.LoadBalancer
import Antegen.Messages
import Antegen.Submission

/-!
# A worker

`execute_thread` asks the cache and the load balancer whether the thread is still to be
executed, and then builds, estimates, submits and confirms one batch after another until a
batch needs no continuation. What the cache, the load balancer, the executor and the
network answer are events. The worker keeps the batches that were confirmed, the newest
first, with what they were built from.

Sleeping and log output are left out, and so is the factor on the estimated compute units.
-/
namespace Antegen.Client

open Transition

/-- What the cache has for a thread: nothing, data that are no thread, or a thread. -/
abbrev CacheAnswer := Option (Option Thread)

def maxContinuationBatches : ℕ := 20

namespace ExecutionResult

def succeeded (k : Pubkey) : ExecutionResult := ⟨k, true, false, none, 0⟩

def failed (k : Pubkey) (error : String) (attemptCount : ℕ) : ExecutionResult :=
  ⟨k, false, false, some error, attemptCount⟩

def wasSkipped (k : Pubkey) : ExecutionResult := ⟨k, true, true, none, 0⟩

/-- All of the thread was executed, as far as the result tells. -/
def Completed (r : ExecutionResult) : Prop := r.success = true ∧ r.skipped = false

end ExecutionResult

/-- A batch with the thread and the cursor that it was built from, and the price per compute
unit that its transaction offers if it is not zero. -/
structure WorkerBatch extends Batch where
  thread : Thread
  overrideFiberCursor : Option UInt8
  unitPrice : ℕ

/-- Where `execute_thread` is. -/
inductive WorkerPhase
  | starting
  | checkingCache
  | deciding (currentLastExecutor : Pubkey)
  | delaying
  | retrying
  | building
  | estimating (batch : WorkerBatch)
  | submitting (batch : WorkerBatch)
  | refetching
  | finished (result : ExecutionResult)

structure Worker where
  threadPubkey : Pubkey
  thread : Thread
  cancelled : Bool
  batchNum : ℕ
  maxPriorityFee : ℕ
  pendingFiberCursor : Option UInt8
  phase : WorkerPhase
  confirmed : List WorkerBatch

inductive WorkerEvent
  | cancel
  | begin
  | cached (answer : CacheAnswer)
  | decided (answer : Except String ProcessDecision) (processDelay : Bool)
  | delayed (answer : CacheAnswer)
  | attempt (deadlinePassed : Bool)
  | built (answer : Except String Batch)
  | estimated (answer : Except String ℕ)
  | submitted (answer : Except (String × ℕ) Unit)
  | fetched (answer : Except String Thread)

namespace Worker

def start (threadPubkey : Pubkey) (thread : Thread) : Worker where
  threadPubkey := threadPubkey
  thread := thread
  cancelled := false
  batchNum := 0
  maxPriorityFee := 0
  pendingFiberCursor := none
  phase := .starting
  confirmed := []

def finish (s : Worker) (result : ExecutionResult) : Worker := { s with phase := .finished result }

def fail (s : Worker) (error : String) (attemptCount : ℕ) : Worker :=
  s.finish (.failed s.threadPubkey error attemptCount)

/-- The head of the batch loop. Only the first batch waits for the trigger. -/
def nextBatch (s : Worker) : Worker :=
  let s := { s with batchNum := s.batchNum + 1 }
  if maxContinuationBatches < s.batchNum then s.finish (.succeeded s.threadPubkey)
  else { s with phase := if s.batchNum = 1 then .retrying else .building }

def begin (s : Worker) : Worker :=
  if s.cancelled then s.fail "Cancelled before execution" 0
  else { s with phase := .checkingCache }

/-- A thread that was executed since it was dispatched is left alone. -/
def cached (s : Worker) : CacheAnswer → Worker
  | some (some fresh) =>
    if fresh.execCount ≠ s.thread.execCount then
      s.fail "Thread already executed (exec_count changed)" 0
    else { s with phase := .deciding fresh.lastExecutor }
  | _ => { s with phase := .deciding s.thread.lastExecutor }

/-- A thread that nobody has executed yet is left to faster clients for a while. -/
def decided (s : Worker) (currentLastExecutor : Pubkey) (processDelay : Bool) :
    Except String ProcessDecision → Worker
  | .error e => s.fail ("Load balancer error: " ++ e) 0
  | .ok .skip => s.fail "Skipped by load balancer" 0
  | .ok .atCapacity => s.fail "At capacity" 0
  | .ok .process =>
    if currentLastExecutor = 0 ∧ processDelay = true then { s with phase := .delaying }
    else s.nextBatch

def delayed (s : Worker) : CacheAnswer → Worker
  | some (some t) =>
    if t.lastExecutor ≠ 0 then s.fail "Claimed during delay" 0 else s.nextBatch
  | _ => s.nextBatch

/-- The head of the loop that waits for the trigger. -/
def attempt (s : Worker) (deadlinePassed : Bool) : Worker :=
  if s.cancelled then s.fail "Cancelled during build" 0
  else if deadlinePassed then s.fail "Trigger window expired while waiting for trigger time" 0
  else { s with phase := .building }

def buildFailed (s : Worker) (e : String) : Worker :=
  if s.batchNum = 1 then
    if isTriggerNotReadyError e then { s with phase := .retrying }
    else if isThreadPausedError e then s.fail "Thread is paused" 0
    else s.fail ("Transaction build failed: " ++ e) 0
  else s.fail ("Continuation batch " ++ toString s.batchNum ++ " build failed: " ++ e) 0

def built (s : Worker) : Except String Batch → Worker
  | .error e => s.buildFailed e
  | .ok batch =>
    let fee := max s.maxPriorityFee batch.priorityFee
    let batch : WorkerBatch := ⟨batch, s.thread, s.pendingFiberCursor, fee⟩
    let s := { s with maxPriorityFee := fee, pendingFiberCursor := batch.nextFiberCursor }
    if batch.ixs.isEmpty then s.finish (.wasSkipped s.threadPubkey)
    else { s with phase := .estimating batch }

def estimated (s : Worker) (batch : WorkerBatch) : Except String ℕ → Worker
  | .error e => s.fail ("Batch " ++ toString s.batchNum ++ " CU estimation failed: " ++ e) 0
  | .ok _ => { s with phase := .submitting batch }

/-- The result of `submit_and_confirm_batch`. -/
def submitted (s : Worker) (batch : WorkerBatch) : Except (String × ℕ) Unit → Worker
  | .error (e, attempts) => s.fail ("Batch " ++ toString s.batchNum ++ " failed: " ++ e) attempts
  | .ok () =>
    let s := { s with confirmed := batch :: s.confirmed }
    if batch.needsContinuation then { s with phase := .refetching }
    else s.finish (.succeeded s.threadPubkey)

def fetched (s : Worker) : Except String Thread → Worker
  | .error e => s.fail ("Failed to re-fetch thread for continuation: " ++ e) 0
  | .ok t => { s with thread := t }.nextBatch

/-- An event in the phase that waits for it. -/
def step (s : Worker) (ev : WorkerEvent) : Option Worker :=
  match ev, s.phase with
  | .cancel, _ => some { s with cancelled := true }
  | .begin, .starting => some s.begin
  | .cached answer, .checkingCache => some (s.cached answer)
  | .decided answer processDelay, .deciding lastExecutor =>
    some (s.decided lastExecutor processDelay answer)
  | .delayed answer, .delaying => some (s.delayed answer)
  | .attempt deadlinePassed, .retrying => some (s.attempt deadlinePassed)
  | .built answer, .building => some (s.built answer)
  | .estimated answer, .estimating batch => some (s.estimated batch answer)
  | .submitted answer, .submitting batch => some (s.submitted batch answer)
  | .fetched answer, .refetching => some (s.fetched answer)
  | _, _ => none

/-! ## What each phase has behind it -/

/-- The confirmed batches hand a cursor over to the next one: each of them was built from
what the one before left, and none was the last. -/
def Continues : List WorkerBatch → Option UInt8 → Prop
  | [], cursor => cursor = none
  | b :: rest, cursor =>
    b.needsContinuation = true ∧ b.nextFiberCursor = cursor ∧ Continues rest b.overrideFiberCursor

/-- The last batch follows the others and needs no continuation, or is the twentieth. -/
def Exhausted : List WorkerBatch → Prop
  | [] => False
  | b :: rest => Continues rest b.overrideFiberCursor ∧
    (b.needsContinuation = false ∨ rest.length + 1 = maxContinuationBatches)

theorem Continues.needsContinuation {l : List WorkerBatch} {cursor : Option UInt8}
    (h : Continues l cursor) : ∀ b ∈ l, b.needsContinuation = true := by
  induction l generalizing cursor with
  | nil => simp
  | cons b rest ih => exact List.forall_mem_cons.mpr ⟨h.1, ih h.2.2⟩

/-- A batch is being built. -/
structure Going (confirmed : List WorkerBatch) (batchNum : ℕ) (cursor : Option UInt8) : Prop where
  continues : Continues confirmed cursor
  count : confirmed.length + 1 = batchNum
  bounded : batchNum ≤ maxContinuationBatches

def InPhase (s : Worker) : Prop :=
  match s.phase with
  | .starting => s.confirmed = [] ∧ s.batchNum = 0 ∧ s.pendingFiberCursor = none
  | .checkingCache => s.confirmed = [] ∧ s.batchNum = 0 ∧ s.pendingFiberCursor = none
  | .deciding _ => s.confirmed = [] ∧ s.batchNum = 0 ∧ s.pendingFiberCursor = none
  | .delaying => s.confirmed = [] ∧ s.batchNum = 0 ∧ s.pendingFiberCursor = none
  | .retrying => Going s.confirmed s.batchNum s.pendingFiberCursor
  | .building => Going s.confirmed s.batchNum s.pendingFiberCursor
  | .estimating b => Going s.confirmed s.batchNum b.overrideFiberCursor ∧
    b.nextFiberCursor = s.pendingFiberCursor
  | .submitting b => Going s.confirmed s.batchNum b.overrideFiberCursor ∧
    b.nextFiberCursor = s.pendingFiberCursor
  | .refetching => Continues s.confirmed s.pendingFiberCursor ∧ s.confirmed.length = s.batchNum ∧
    s.batchNum ≤ maxContinuationBatches ∧ 0 < s.batchNum
  | .finished result => s.confirmed.length ≤ maxContinuationBatches ∧
    (result.Completed → Exhausted s.confirmed) ∧
    (¬ result.Completed → ∃ cursor, Continues s.confirmed cursor)

section Phases

variable {s : Worker}

theorem fail_inPhase {cursor : Option UInt8} (h : Continues s.confirmed cursor)
    (hlength : s.confirmed.length ≤ maxContinuationBatches) (error : String) (attemptCount : ℕ) :
    (s.fail error attemptCount).InPhase := by
  refine ⟨hlength, fun hcompleted => ?_, fun _ => ⟨cursor, h⟩⟩
  exact absurd hcompleted.1 Bool.false_ne_true

theorem fail_of_nil (h : s.confirmed = []) (error : String) (attemptCount : ℕ) :
    (s.fail error attemptCount).InPhase := by
  refine fail_inPhase (show Continues s.confirmed none from ?_) ?_ error attemptCount
  · rw [h]
    rfl
  · rw [h]
    exact Nat.zero_le _

theorem Going.fail {cursor : Option UInt8} (h : Going s.confirmed s.batchNum cursor)
    (error : String) (attemptCount : ℕ) : (s.fail error attemptCount).InPhase := by
  have hcount := h.count
  have hbounded := h.bounded
  exact fail_inPhase h.continues (by omega) error attemptCount

/-- After twenty batches the worker stops as if it had completed. -/
theorem nextBatch_inPhase (h : Continues s.confirmed s.pendingFiberCursor)
    (hcount : s.confirmed.length = s.batchNum) (hbounded : s.batchNum ≤ maxContinuationBatches) :
    s.nextBatch.InPhase := by
  unfold nextBatch
  dsimp only
  split_ifs with hmax hfirst
  · have hlength : s.confirmed.length = maxContinuationBatches := by omega
    refine ⟨hlength.le, fun _ => ?_, fun hnot => absurd ⟨rfl, rfl⟩ hnot⟩
    unfold finish
    dsimp only
    cases hc : s.confirmed with
    | nil =>
      rw [hc] at hlength
      exact absurd hlength (by decide)
    | cons b rest =>
      rw [hc] at h hlength
      exact ⟨h.2.2, Or.inr hlength⟩
  · exact ⟨h, by simpa using hcount, by simpa using hmax⟩
  · exact ⟨h, by simpa using hcount, by simpa using hmax⟩

theorem nextBatch_of_fresh (h : s.confirmed = [] ∧ s.batchNum = 0 ∧ s.pendingFiberCursor = none) :
    s.nextBatch.InPhase := by
  obtain ⟨hnil, hzero, hnone⟩ := h
  refine nextBatch_inPhase ?_ ?_ ?_
  · rw [hnil, hnone]
    rfl
  · rw [hnil, hzero]
    rfl
  · rw [hzero]
    exact Nat.zero_le _

theorem cached_inPhase (h : s.confirmed = [] ∧ s.batchNum = 0 ∧ s.pendingFiberCursor = none)
    (answer : CacheAnswer) : (s.cached answer).InPhase := by
  unfold cached
  split
  · split_ifs
    · exact fail_of_nil h.1 _ _
    · exact h
  · exact h

theorem decided_inPhase (h : s.confirmed = [] ∧ s.batchNum = 0 ∧ s.pendingFiberCursor = none)
    (lastExecutor : Pubkey) (processDelay : Bool) (answer : Except String ProcessDecision) :
    (s.decided lastExecutor processDelay answer).InPhase := by
  unfold decided
  split
  · exact fail_of_nil h.1 _ _
  · exact fail_of_nil h.1 _ _
  · exact fail_of_nil h.1 _ _
  · split_ifs
    · exact h
    · exact nextBatch_of_fresh h

theorem delayed_inPhase (h : s.confirmed = [] ∧ s.batchNum = 0 ∧ s.pendingFiberCursor = none)
    (answer : CacheAnswer) : (s.delayed answer).InPhase := by
  unfold delayed
  split
  · split_ifs
    · exact fail_of_nil h.1 _ _
    · exact nextBatch_of_fresh h
  · exact nextBatch_of_fresh h

theorem attempt_inPhase (h : Going s.confirmed s.batchNum s.pendingFiberCursor)
    (deadlinePassed : Bool) : (s.attempt deadlinePassed).InPhase := by
  unfold attempt
  split_ifs
  · exact h.fail _ _
  · exact h.fail _ _
  · exact h

theorem buildFailed_inPhase (h : Going s.confirmed s.batchNum s.pendingFiberCursor) (e : String) :
    (s.buildFailed e).InPhase := by
  unfold buildFailed
  split_ifs
  · exact h
  · exact h.fail _ _
  · exact h.fail _ _
  · exact h.fail _ _

theorem built_inPhase (h : Going s.confirmed s.batchNum s.pendingFiberCursor)
    (answer : Except String Batch) : (s.built answer).InPhase := by
  cases answer with
  | error e => exact buildFailed_inPhase h e
  | ok batch =>
    have hcount := h.count
    have hbounded := h.bounded
    unfold built
    dsimp only
    split_ifs
    · refine ⟨?_, fun hcompleted => ?_, fun _ => ⟨s.pendingFiberCursor, h.continues⟩⟩
      · unfold finish
        dsimp only
        omega
      · exact absurd hcompleted.2 (by simp [ExecutionResult.wasSkipped])
    · exact ⟨h, rfl⟩

theorem estimated_inPhase {b : WorkerBatch}
    (h : Going s.confirmed s.batchNum b.overrideFiberCursor ∧
      b.nextFiberCursor = s.pendingFiberCursor)
    (answer : Except String ℕ) : (s.estimated b answer).InPhase := by
  cases answer with
  | error e => exact h.1.fail _ _
  | ok units => exact h

theorem submitted_inPhase {b : WorkerBatch}
    (h : Going s.confirmed s.batchNum b.overrideFiberCursor ∧
      b.nextFiberCursor = s.pendingFiberCursor)
    (answer : Except (String × ℕ) Unit) : (s.submitted b answer).InPhase := by
  obtain ⟨⟨hcontinues, hcount, hbounded⟩, hnext⟩ := h
  unfold submitted
  split
  · exact fail_inPhase hcontinues (by omega) _ _
  · dsimp only
    split_ifs with hmore
    · have hpos : 0 < s.batchNum := by omega
      exact ⟨⟨hmore, hnext, hcontinues⟩, hcount, hbounded, hpos⟩
    · refine ⟨?_, fun _ => ?_, fun hnot => absurd ⟨rfl, rfl⟩ hnot⟩
      · rw [← hcount] at hbounded
        exact hbounded
      · exact ⟨hcontinues, Or.inl (Bool.eq_false_of_not_eq_true hmore)⟩

theorem fetched_inPhase (h : Continues s.confirmed s.pendingFiberCursor ∧
    s.confirmed.length = s.batchNum ∧ s.batchNum ≤ maxContinuationBatches ∧ 0 < s.batchNum)
    (answer : Except String Thread) : (s.fetched answer).InPhase := by
  obtain ⟨hcontinues, hcount, hbounded, -⟩ := h
  cases answer with
  | error e => exact fail_inPhase hcontinues (by omega) _ _
  | ok t => exact nextBatch_inPhase hcontinues hcount hbounded

/-- The step lemma: every event leads to what the phase it leads to has behind it. -/
theorem step_inPhase {s' : Worker} {ev : WorkerEvent} (hI : s.InPhase)
    (h : s.step ev = some s') : s'.InPhase := by
  unfold step at h
  split at h
  · obtain rfl := Option.some.inj h
    exact hI
  all_goals first
    | obtain rfl := Option.some.inj h
    | exact absurd h (by simp)
  all_goals rename_i hphase; rw [InPhase, hphase] at hI
  · unfold begin
    split_ifs
    · exact fail_of_nil hI.1 _ _
    · exact hI
  · exact cached_inPhase hI _
  · exact decided_inPhase hI _ _ _
  · exact delayed_inPhase hI _
  · exact attempt_inPhase hI _
  · exact built_inPhase hI _
  · exact estimated_inPhase hI _
  · exact submitted_inPhase hI _
  · exact fetched_inPhase hI _

end Phases

/-! ## What the batches offer -/

section Offers

variable {answers : Thread → Option UInt8 → Batch → Prop}

/-- Every batch has instructions, was built from its thread and cursor, and offers at least
what its own instructions ask for and what the batches before it offered. -/
structure Offers (answers : Thread → Option UInt8 → Batch → Prop) (batches : List WorkerBatch)
    (maxPriorityFee : ℕ) : Prop where
  batch : ∀ b ∈ batches, b.ixs ≠ [] ∧ b.priorityFee ≤ b.unitPrice ∧
    answers b.thread b.overrideFiberCursor b.toBatch
  bounded : ∀ b ∈ batches, b.unitPrice ≤ maxPriorityFee
  rising : batches.Pairwise fun newer older => older.unitPrice ≤ newer.unitPrice

/-- The confirmed batches and the one that is on its way. -/
def inHand (s : Worker) : List WorkerBatch :=
  match s.phase with
  | .estimating b => b :: s.confirmed
  | .submitting b => b :: s.confirmed
  | _ => s.confirmed

theorem Offers.tail {b : WorkerBatch} {batches : List WorkerBatch} {fee : ℕ}
    (h : Offers answers (b :: batches) fee) : Offers answers batches fee :=
  ⟨fun c hc => h.batch c (List.mem_cons_of_mem b hc),
    fun c hc => h.bounded c (List.mem_cons_of_mem b hc), h.rising.of_cons⟩

/-- The highest fee so far is the price of the new batch. -/
theorem Offers.cons {b : WorkerBatch} {batches : List WorkerBatch} {fee : ℕ}
    (h : Offers answers batches fee) (hixs : b.ixs ≠ [])
    (hprice : b.unitPrice = max fee b.priorityFee)
    (hanswers : answers b.thread b.overrideFiberCursor b.toBatch) :
    Offers answers (b :: batches) b.unitPrice := by
  have hfee : fee ≤ b.unitPrice := hprice ▸ le_max_left _ _
  refine ⟨List.forall_mem_cons.mpr ⟨⟨hixs, hprice ▸ le_max_right _ _, hanswers⟩, h.batch⟩,
    List.forall_mem_cons.mpr ⟨le_rfl, fun c hc => (h.bounded c hc).trans hfee⟩,
    List.pairwise_cons.mpr ⟨fun c hc => (h.bounded c hc).trans hfee, h.rising⟩⟩

/-- The executor built the batch from the thread and the cursor that it was given. -/
def Answers (answers : Thread → Option UInt8 → Batch → Prop) : Worker → WorkerEvent → Prop
  | s, .built (.ok batch) => answers s.thread s.pendingFiberCursor batch
  | _, _ => True

variable {s s' : Worker}

theorem nextBatch_offers (h : Offers answers s.confirmed s.maxPriorityFee) :
    Offers answers s.nextBatch.inHand s.nextBatch.maxPriorityFee := by
  unfold nextBatch
  dsimp only
  split_ifs <;> exact h

theorem built_offers {answer : Except String Batch}
    (h : Offers answers s.confirmed s.maxPriorityFee) (hguard : Answers answers s (.built answer)) :
    Offers answers (s.built answer).inHand (s.built answer).maxPriorityFee := by
  cases answer with
  | error e =>
    unfold built buildFailed
    dsimp only
    split_ifs <;> exact h
  | ok batch =>
    unfold built
    dsimp only
    split_ifs with hempty
    · exact ⟨h.batch, fun b hb => (h.bounded b hb).trans (le_max_left _ _), h.rising⟩
    · refine h.cons ?_ rfl hguard
      simpa using hempty

/-- The step lemma: only a batch that was built is new. -/
theorem step_offers {ev : WorkerEvent} (hguard : Answers answers s ev)
    (h : s.step ev = some s') (hI : Offers answers s.inHand s.maxPriorityFee) :
    Offers answers s'.inHand s'.maxPriorityFee := by
  unfold step at h
  split at h
  · obtain rfl := Option.some.inj h
    exact hI
  all_goals first
    | obtain rfl := Option.some.inj h
    | exact absurd h (by simp)
  all_goals rename_i hphase; rw [inHand, hphase] at hI
  · unfold begin
    split_ifs <;> exact hI
  · unfold cached
    split
    · split_ifs <;> exact hI
    · exact hI
  · unfold decided
    split
    · exact hI
    · exact hI
    · exact hI
    · split_ifs
      · exact hI
      · exact nextBatch_offers hI
  · unfold delayed
    split
    · split_ifs
      · exact hI
      · exact nextBatch_offers hI
    · exact nextBatch_offers hI
  · unfold attempt
    split_ifs <;> exact hI
  · exact built_offers hI hguard
  · unfold estimated
    split
    · exact hI.tail
    · exact hI
  · unfold submitted
    split
    · exact hI.tail
    · dsimp only
      split_ifs <;> exact hI
  · unfold fetched
    split
    · exact hI
    · exact nextBatch_offers hI

end Offers

/-! ## What comes before a batch -/

/-- The cache did not show that the thread was executed since it was dispatched. -/
def NotOvertaken (dispatched : Thread) (events : List WorkerEvent) : Prop :=
  ∃ answer, .cached answer ∈ events ∧
    ∀ fresh, answer = some (some fresh) → fresh.execCount = dispatched.execCount

/-- And the load balancer decided for the thread. -/
def Approved (dispatched : Thread) (events : List WorkerEvent) : Prop :=
  NotOvertaken dispatched events ∧ ∃ processDelay, .decided (.ok .process) processDelay ∈ events

def ApprovedIn (dispatched : Thread) (events : List WorkerEvent) (s : Worker) : Prop :=
  match s.phase with
  | .starting => s.thread = dispatched ∧ s.confirmed = []
  | .checkingCache => s.thread = dispatched ∧ s.confirmed = []
  | .deciding _ => NotOvertaken dispatched events ∧ s.confirmed = []
  | .finished _ => s.confirmed ≠ [] → Approved dispatched events
  | _ => Approved dispatched events

section Approval

variable {dispatched : Thread} {events : List WorkerEvent} {s s' : Worker}

theorem NotOvertaken.append (h : NotOvertaken dispatched events) (more : List WorkerEvent) :
    NotOvertaken dispatched (events ++ more) := by
  obtain ⟨answer, hmem, hfresh⟩ := h
  exact ⟨answer, List.mem_append_left more hmem, hfresh⟩

theorem Approved.append (h : Approved dispatched events) (more : List WorkerEvent) :
    Approved dispatched (events ++ more) := by
  obtain ⟨hcached, processDelay, hmem⟩ := h
  exact ⟨hcached.append more, processDelay, List.mem_append_left more hmem⟩

theorem ApprovedIn.append (h : ApprovedIn dispatched events s) (more : List WorkerEvent) :
    ApprovedIn dispatched (events ++ more) s := by
  unfold ApprovedIn at h ⊢
  split at h
  · exact h
  · exact h
  · exact ⟨h.1.append more, h.2⟩
  · exact fun hne => (h hne).append more
  · exact Approved.append h more

theorem fail_approved (h : s.confirmed ≠ [] → Approved dispatched events) (error : String)
    (attemptCount : ℕ) : ApprovedIn dispatched events (s.fail error attemptCount) := h

theorem nextBatch_approved (h : Approved dispatched events) :
    ApprovedIn dispatched events s.nextBatch := by
  unfold nextBatch
  dsimp only
  split_ifs
  · exact fun _ => h
  · exact h
  · exact h

/-- The step lemma: only the decision of the load balancer leads to a batch. -/
theorem step_approved {ev : WorkerEvent} (hI : ApprovedIn dispatched events s)
    (h : s.step ev = some s') : ApprovedIn dispatched (events ++ [ev]) s' := by
  have hmem : ev ∈ events ++ [ev] := List.mem_append_right events List.mem_cons_self
  have hI' := hI.append [ev]
  unfold step at h
  split at h
  · obtain rfl := Option.some.inj h
    exact hI'
  all_goals first
    | obtain rfl := Option.some.inj h
    | exact absurd h (by simp)
  all_goals rename_i hphase; rw [ApprovedIn, hphase] at hI'
  · unfold begin
    split_ifs
    · exact fun hne => absurd hI'.2 hne
    · exact hI'
  · obtain ⟨hthread, hnil⟩ := hI'
    unfold cached
    split
    · split_ifs with hcount
      · exact fun hne => absurd hnil hne
      · refine ⟨⟨_, hmem, fun fresh hfresh => ?_⟩, hnil⟩
        obtain rfl := Option.some.inj (Option.some.inj hfresh)
        rw [← hthread]
        exact not_not.mp hcount
    · rename_i hunread
      exact ⟨⟨_, hmem, fun fresh hfresh => absurd hfresh (hunread fresh)⟩, hnil⟩
  · obtain ⟨hcached, hnil⟩ := hI'
    unfold decided
    split
    · exact fun hne => absurd hnil hne
    · exact fun hne => absurd hnil hne
    · exact fun hne => absurd hnil hne
    · split_ifs
      · exact ⟨hcached, _, hmem⟩
      · exact nextBatch_approved ⟨hcached, _, hmem⟩
  · unfold delayed
    split
    · split_ifs
      · exact fail_approved (fun _ => hI') _ _
      · exact nextBatch_approved hI'
    · exact nextBatch_approved hI'
  · unfold attempt
    split_ifs
    · exact fail_approved (fun _ => hI') _ _
    · exact fail_approved (fun _ => hI') _ _
    · exact hI'
  · unfold built
    split
    · unfold buildFailed
      split_ifs
      · exact hI'
      · exact fail_approved (fun _ => hI') _ _
      · exact fail_approved (fun _ => hI') _ _
      · exact fail_approved (fun _ => hI') _ _
    · dsimp only
      split_ifs
      · exact fun _ => hI'
      · exact hI'
  · unfold estimated
    split
    · exact fail_approved (fun _ => hI') _ _
    · exact hI'
  · unfold submitted
    split
    · exact fail_approved (fun _ => hI') _ _
    · dsimp only
      split_ifs
      · exact hI'
      · exact fun _ => hI'
  · unfold fetched
    split
    · exact fail_approved (fun _ => hI') _ _
    · exact nextBatch_approved hI'

end Approval

/-! ## The outcome -/

/-- Whatever the cache, the load balancer, the executor and the network answer, in whatever
order cancellations come: a worker has at most twenty batches confirmed, and none unless
the load balancer had decided for a thread that nobody was seen to have executed since. Each
batch follows the one before, and none offers less than those before it. A worker that
reports success had all batches confirmed, or twenty of them, after which it stops as if
there were no more; one that reports anything else leaves batches to be executed. -/
theorem worker_outcome {answers : Thread → Option UInt8 → Batch → Prop} {threadPubkey : Pubkey}
    {dispatched : Thread} {events : List WorkerEvent} {s : Worker}
    (h : Run (Guarded (fun s ev s' => s.step ev = some s') (Answers answers))
      (start threadPubkey dispatched) events s)
    {result : ExecutionResult} (hdone : s.phase = .finished result) :
    s.confirmed.length ≤ maxContinuationBatches ∧
      (s.confirmed ≠ [] → Approved dispatched events) ∧
      (∀ b ∈ s.confirmed, b.ixs ≠ [] ∧ b.priorityFee ≤ b.unitPrice ∧
        answers b.thread b.overrideFiberCursor b.toBatch) ∧
      (s.confirmed.Pairwise fun newer older => older.unitPrice ≤ newer.unitPrice) ∧
      (result.Completed → Exhausted s.confirmed) ∧
      (¬ result.Completed → ∃ cursor, Continues s.confirmed cursor) := by
  have hstart : (start threadPubkey dispatched).InPhase := ⟨rfl, rfl, rfl⟩
  have hphase : s.InPhase :=
    h.invariant (I := InPhase) (fun _ _ _ hI hstep => step_inPhase hI hstep.2) hstart
  have hoffers : Offers answers s.inHand s.maxPriorityFee :=
    h.invariant (I := fun s => Offers answers s.inHand s.maxPriorityFee)
      (fun _ _ _ hI hstep => step_offers hstep.1 hstep.2 hI) ⟨by simp [inHand, start],
        by simp [inHand, start], List.Pairwise.nil⟩
  have happroved : ApprovedIn dispatched events s := by
    have hstart : ApprovedIn dispatched [] (start threadPubkey dispatched) := ⟨rfl, rfl⟩
    have hhistory := h.history (I := ApprovedIn dispatched) (f := fun ev => [ev])
      (fun _ _ _ _ hI hstep => step_approved hI hstep.2) hstart
    rwa [List.flatMap_singleton', List.nil_append] at hhistory
  rw [InPhase, hdone] at hphase
  rw [inHand, hdone] at hoffers
  rw [ApprovedIn, hdone] at happroved
  obtain ⟨hlength, hcompleted, hleft⟩ := hphase
  exact ⟨hlength, happroved, hoffers.batch, hoffers.rising, hcompleted, hleft⟩

/-! ## A worker with two batches -/

def pairThread : Thread where
  version := 1
  bump := 255
  authority := 5
  id := [1]
  createdAt := 0
  trigger := .immediate 0
  schedule := .timed 0 0
  fiberIds := [0, 1]
  fiberCursor := 0
  fiberNextId := 2
  fiberSignal := .none
  paused := false
  execCount := 0
  lastExecutor := 0
  nonceAccount := 0
  closeFiber := []

/-- The thread after the first batch, whose fiber has returned a chain. -/
def pairChained : Thread :=
  { pairThread with fiberSignal := .chain, execCount := 1, lastExecutor := 9 }

/-- The execution of a fiber, which offers a price for each compute unit. -/
def pairBatch (fiber : UInt8) (priorityFee : ℕ) (next : Option UInt8) : Batch :=
  ⟨[⟨⟨9, 1, 2, 4, none, none⟩, threadProgram, [], true, fiber⟩], priorityFee, next.isSome, next⟩

/-- What the executor builds from either thread. -/
def pairAnswers (t : Thread) (cursor : Option UInt8) (b : Batch) : Prop :=
  (t = pairThread ∧ cursor = none ∧ b = pairBatch 0 3 (some 1)) ∨
    (t = pairChained ∧ cursor = some 1 ∧ b = pairBatch 1 2 none)

/-- Nothing is cached, and the trigger is ready at the second attempt. -/
def pairEvents : List WorkerEvent :=
  [.begin, .cached none, .decided (.ok .process) true, .delayed none, .attempt false,
    .built (.error "InstructionError(0, Custom(6004))"), .attempt false,
    .built (.ok (pairBatch 0 3 (some 1))), .estimated (.ok 1000), .submitted (.ok ()),
    .fetched (.ok pairChained), .built (.ok (pairBatch 1 2 none)), .estimated (.ok 900),
    .submitted (.ok ())]

/-- The second batch continues the first, and offers its price. -/
theorem worker_outcome_sample :
    ∃ s : Worker, s.phase = .finished (.succeeded 1) ∧ s.confirmed.map (·.unitPrice) = [3, 3] ∧
      s.confirmed.map (·.overrideFiberCursor) = [some 1, none] ∧
      (s.confirmed.length ≤ maxContinuationBatches ∧
      (s.confirmed ≠ [] → Approved pairThread pairEvents) ∧
      (∀ b ∈ s.confirmed, b.ixs ≠ [] ∧ b.priorityFee ≤ b.unitPrice ∧
        pairAnswers b.thread b.overrideFiberCursor b.toBatch) ∧
      (s.confirmed.Pairwise fun newer older => older.unitPrice ≤ newer.unitPrice) ∧
      ((ExecutionResult.succeeded 1).Completed → Exhausted s.confirmed) ∧
      (¬ (ExecutionResult.succeeded 1).Completed → ∃ cursor, Continues s.confirmed cursor)) := by
  have hrun : Run (Guarded (fun s ev s' => s.step ev = some s') (Answers pairAnswers))
      (start 1 pairThread) pairEvents
      ⟨1, pairChained, false, 2, 3, none, .finished (.succeeded 1),
        [⟨pairBatch 1 2 none, pairChained, some 1, 3⟩,
          ⟨pairBatch 0 3 (some 1), pairThread, none, 3⟩]⟩ :=
    .cons ⟨trivial, rfl⟩ <| .cons ⟨trivial, rfl⟩ <| .cons ⟨trivial, rfl⟩ <|
      .cons ⟨trivial, rfl⟩ <| .cons ⟨trivial, rfl⟩ <| .cons ⟨trivial, rfl⟩ <|
      .cons ⟨trivial, rfl⟩ <| .cons ⟨Or.inl ⟨rfl, rfl, rfl⟩, rfl⟩ <| .cons ⟨trivial, rfl⟩ <|
      .cons ⟨trivial, rfl⟩ <| .cons ⟨trivial, rfl⟩ <| .cons ⟨Or.inr ⟨rfl, rfl, rfl⟩, rfl⟩ <|
      .cons ⟨trivial, rfl⟩ <| .cons ⟨trivial, rfl⟩ <| .nil _
  exact ⟨_, rfl, rfl, rfl, worker_outcome hrun rfl⟩

end Worker

end Antegen.Client
