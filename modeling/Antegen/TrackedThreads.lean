import Antegen.LostExecutions

/-!
# Tracked threads

The entries of the tracking over any sequence of calls, whichever threads they are about. A
counter stays below the threshold, and a thread that is not ours has none. So the threads
that count as being lost when the capacity is looked at are threads of ours.

At capacity a thread should be taken over only if it is overdue by half as much again as the
takeover delay. The shorter delay is tested first.
-/
namespace Antegen.Client

open Transition

namespace LoadBalancer

def resetThread (lb : LoadBalancer) (threadPubkey : Pubkey) : LoadBalancer :=
  { lb with tracking := lb.tracking.erase threadPubkey }

def removeThread (lb : LoadBalancer) (threadPubkey : Pubkey) : LoadBalancer :=
  { lb with tracking := lb.tracking.erase threadPubkey }

def pruneStale (lb : LoadBalancer) (knownThreads : List Pubkey) : LoadBalancer :=
  { lb with tracking :=
      ⟨lb.tracking.entries.filter fun entry => knownThreads.contains entry.1,
        lb.tracking.nodupKeys.sublist List.filter_sublist⟩ }

/-- A call of one of the methods that change the tracking. -/
inductive Call
  | shouldProcess (threadPubkey lastExecutor : Pubkey) (isOverdue : Bool) (overdueSeconds : ℤ)
  | recordExecutionResult (threadPubkey : Pubkey) (success : Bool) (currentTimestamp : ℤ)
  | resetThread (threadPubkey : Pubkey)
  | removeThread (threadPubkey : Pubkey)
  | pruneStale (knownThreads : List Pubkey)
  deriving DecidableEq, Repr

def apply (lb : LoadBalancer) : Call → LoadBalancer
  | .shouldProcess k lastExecutor isOverdue overdueSeconds =>
    (lb.shouldProcess k lastExecutor isOverdue overdueSeconds).1
  | .recordExecutionResult k success currentTimestamp =>
    lb.recordExecutionResult k success currentTimestamp
  | .resetThread k => lb.resetThread k
  | .removeThread k => lb.removeThread k
  | .pruneStale knownThreads => lb.pruneStale knownThreads

def Step (lb : LoadBalancer) (call : Call) (lb' : LoadBalancer) : Prop := lb.apply call = lb'

/-- Every entry has a property. -/
def Entries (lb : LoadBalancer) (P : ThreadTracking → Prop) : Prop :=
  ∀ k, ∀ t ∈ lb.tracking.lookup k, P t

/-- The counter is below the threshold, and there is none for a thread that is not ours. -/
structure Sound (capacityThreshold : ℕ) (t : ThreadTracking) : Prop where
  bounded : t.consecutiveLosses < capacityThreshold
  foreign : t.owned = false → t.consecutiveLosses = 0

/-! ## Calls and entries -/

theorem Entries.track {lb : LoadBalancer} {P : ThreadTracking → Prop} (h : lb.Entries P)
    (hdefault : P {}) (k : Pubkey) : P (lb.track k) := by
  unfold LoadBalancer.track
  cases hlookup : lb.tracking.lookup k with
  | none => exact hdefault
  | some t => exact h k t hlookup

theorem Entries.setTrack {lb : LoadBalancer} {P : ThreadTracking → Prop} (h : lb.Entries P)
    {k : Pubkey} {t : ThreadTracking} (ht : P t) : (lb.setTrack k t).Entries P := by
  intro j u hu
  by_cases hj : j = k
  · subst hj
    rw [LoadBalancer.setTrack, AList.lookup_insert] at hu
    obtain rfl := Option.some.inj hu
    exact ht
  · rw [LoadBalancer.setTrack, AList.lookup_insert_ne hj] at hu
    exact h j u hu

/-- Entries that are removed leave the others as they are. -/
theorem Entries.of_subset {lb lb' : LoadBalancer} {P : ThreadTracking → Prop} (h : lb.Entries P)
    (hsub : lb'.tracking.entries ⊆ lb.tracking.entries) : lb'.Entries P := fun k t ht =>
  h k t (AList.mem_lookup_iff.mpr (hsub (AList.mem_lookup_iff.mp ht)))

@[simp] theorem checkCapacity_tracking (lb : LoadBalancer) :
    lb.checkCapacity.tracking = lb.tracking := by
  unfold checkCapacity
  simp only
  split_ifs <;> rfl

theorem Entries.checkCapacity {lb : LoadBalancer} {P : ThreadTracking → Prop}
    (h : lb.Entries P) : lb.checkCapacity.Entries P := by
  intro k t ht
  rw [checkCapacity_tracking] at ht
  exact h k t ht

/-- A question changes one entry, and none with balancing off. -/
theorem Entries.shouldProcess {lb : LoadBalancer} {P : ThreadTracking → Prop} (h : lb.Entries P)
    {k lastExecutor : Pubkey} (ht : P (lb.updateOwnership lastExecutor (lb.track k)))
    (isOverdue : Bool) (overdueSeconds : ℤ) :
    (lb.shouldProcess k lastExecutor isOverdue overdueSeconds).1.Entries P := by
  unfold LoadBalancer.shouldProcess
  simp only
  split_ifs with hdisabled hcheck
  · exact h
  · exact (h.setTrack ht).checkCapacity
  · exact h.setTrack ht

/-- A result changes one entry. -/
theorem Entries.recordExecutionResult {lb : LoadBalancer} {P : ThreadTracking → Prop}
    (h : lb.Entries P) {k : Pubkey} {success : Bool} {currentTimestamp : ℤ}
    (ht : P (lb.resultTrack success currentTimestamp (lb.track k))) :
    (lb.recordExecutionResult k success currentTimestamp).Entries P := by
  unfold resultTrack at ht
  unfold LoadBalancer.recordExecutionResult
  simp only at ht ⊢
  split_ifs at ht ⊢ with hsuccess howned howned hcheck
  · exact h.setTrack ht
  · exact h.setTrack ht
  · exact (h.setTrack ht).checkCapacity
  · exact h.setTrack ht
  · exact h.setTrack ht

theorem Entries.erase {lb lb' : LoadBalancer} {P : ThreadTracking → Prop} (h : lb.Entries P)
    {k : Pubkey} (htracking : lb'.tracking = lb.tracking.erase k) : lb'.Entries P := by
  refine h.of_subset ?_
  rw [htracking]
  exact (List.kerase_sublist k lb.tracking.entries).subset

theorem Entries.pruneStale {lb : LoadBalancer} {P : ThreadTracking → Prop} (h : lb.Entries P)
    (knownThreads : List Pubkey) : (lb.pruneStale knownThreads).Entries P :=
  h.of_subset (List.filter_subset_self _)

theorem apply_config (lb : LoadBalancer) (call : Call) : (lb.apply call).config = lb.config := by
  cases call with
  | shouldProcess k lastExecutor isOverdue overdueSeconds =>
    exact (lb.shouldProcess_frame k lastExecutor isOverdue overdueSeconds).1
  | recordExecutionResult k success currentTimestamp =>
    exact (lb.recordExecutionResult_frame k success currentTimestamp).1
  | resetThread k => rfl
  | removeThread k => rfl
  | pruneStale knownThreads => rfl

/-! ## The invariant -/

theorem lose_sound {lb : LoadBalancer} (hthreshold : 1 ≤ lb.config.capacityThreshold)
    {t : ThreadTracking} (howned : t.owned = true) :
    Sound lb.config.capacityThreshold (lb.lose t) := by
  unfold lose
  split_ifs with h
  · exact ⟨hthreshold, fun _ => rfl⟩
  · exact ⟨not_le.mp h, fun hforeign => absurd (howned.symm.trans hforeign) (by simp)⟩

theorem updateOwnership_sound {lb : LoadBalancer} (hthreshold : 1 ≤ lb.config.capacityThreshold)
    {t : ThreadTracking} (ht : Sound lb.config.capacityThreshold t) (lastExecutor : Pubkey) :
    Sound lb.config.capacityThreshold (lb.updateOwnership lastExecutor t) := by
  unfold updateOwnership
  split_ifs with hus hlost
  · exact ⟨hthreshold, fun _ => rfl⟩
  · exact lose_sound hthreshold hlost.2
  · exact ht

theorem resultTrack_sound {lb : LoadBalancer} (hthreshold : 1 ≤ lb.config.capacityThreshold)
    {t : ThreadTracking} (ht : Sound lb.config.capacityThreshold t) (success : Bool)
    (currentTimestamp : ℤ) :
    Sound lb.config.capacityThreshold (lb.resultTrack success currentTimestamp t) := by
  unfold resultTrack
  simp only
  split_ifs with hsuccess howned
  · exact ⟨hthreshold, fun _ => rfl⟩
  · exact lose_sound hthreshold howned
  · exact ⟨ht.bounded, ht.foreign⟩

/-- The step lemma. -/
theorem apply_sound {lb : LoadBalancer} (hthreshold : 1 ≤ lb.config.capacityThreshold)
    (h : lb.Entries (Sound lb.config.capacityThreshold)) (call : Call) :
    (lb.apply call).Entries (Sound lb.config.capacityThreshold) := by
  have htrack := h.track ⟨hthreshold, fun _ => rfl⟩
  cases call with
  | shouldProcess k lastExecutor isOverdue overdueSeconds =>
    exact h.shouldProcess (updateOwnership_sound hthreshold (htrack k) lastExecutor) _ _
  | recordExecutionResult k success currentTimestamp =>
    exact h.recordExecutionResult (resultTrack_sound hthreshold (htrack k) _ _)
  | resetThread k => exact h.erase rfl
  | removeThread k => exact h.erase rfl
  | pruneStale knownThreads => exact h.pruneStale knownThreads

theorem new_entries (executorPubkey : Pubkey) (config : LoadBalancerConfig)
    (P : ThreadTracking → Prop) : (new executorPubkey config).Entries P := by
  intro k t ht
  exact absurd ht (by simp [new])

/-- The run lemma. -/
theorem entries_sound {executorPubkey : Pubkey} {config : LoadBalancerConfig}
    (hthreshold : 1 ≤ config.capacityThreshold) {calls : List Call} {lb : LoadBalancer}
    (hrun : Run Step (new executorPubkey config) calls lb) :
    lb.Entries (Sound config.capacityThreshold) := by
  refine (hrun.invariant (I := fun lb => lb.config = config ∧
    lb.Entries (Sound config.capacityThreshold)) ?_ ⟨rfl, new_entries _ _ _⟩).2
  rintro lb call lb' ⟨hconfig, hsound⟩ rfl
  refine ⟨(lb.apply_config call).trans hconfig, ?_⟩
  rw [← hconfig] at hthreshold hsound ⊢
  exact apply_sound hthreshold hsound call

/-- Only threads of ours count as being lost. -/
theorem Entries.countTracked_losses {lb : LoadBalancer} {capacityThreshold : ℕ}
    (h : lb.Entries (Sound capacityThreshold)) :
    countTracked lb.tracking (fun t => 0 < t.consecutiveLosses) =
      countTracked lb.tracking fun t => t.owned && 0 < t.consecutiveLosses := by
  unfold countTracked
  refine congrArg List.length (List.filter_congr fun entry hentry => ?_)
  have hsound := h entry.1 entry.2 (AList.mem_lookup_iff.mpr hentry)
  cases howned : entry.2.owned with
  | true => simp [howned]
  | false => simp [hsound.foreign howned]

/-- After any calls every counter is below the threshold, an entry that is not owned has no
losses, and so the losses that are counted for the capacity are those of owned threads. -/
theorem tracking_invariant (executorPubkey : Pubkey) (config : LoadBalancerConfig)
    (hthreshold : 1 ≤ config.capacityThreshold) (calls : List Call) (lb : LoadBalancer)
    (hrun : Run Step (new executorPubkey config) calls lb) :
    (∀ k, ∀ t ∈ lb.tracking.lookup k, t.consecutiveLosses < config.capacityThreshold ∧
        (t.owned = false → t.consecutiveLosses = 0)) ∧
      countTracked lb.tracking (fun t => 0 < t.consecutiveLosses) =
        countTracked lb.tracking fun t => t.owned && 0 < t.consecutiveLosses := by
  have hsound := entries_sound hthreshold hrun
  refine ⟨fun k t ht => ?_, hsound.countTracked_losses⟩
  exact ⟨(hsound k t ht).bounded, (hsound k t ht).foreign⟩

/-- Threads 1 and 2 become ours. Thread 2 is lost once and thread 1 twice. -/
def lostTwice : List Call :=
  [.recordExecutionResult 1 true 100, .recordExecutionResult 2 true 100,
    .recordExecutionResult 2 false 101, .recordExecutionResult 1 false 102,
    .shouldProcess 1 8 false 0, .resetThread 3, .removeThread 4, .pruneStale [1, 2]]

theorem run_apply (lb : LoadBalancer) (calls : List Call) :
    Run Step lb calls (calls.foldl apply lb) := by
  induction calls generalizing lb with
  | nil => exact Run.nil lb
  | cons call calls ih => exact Run.cons rfl (ih (lb.apply call))

theorem tracking_invariant_lostTwice :
    ∃ lb, Run Step (new 9 ⟨true, 2, 5⟩) lostTwice lb ∧
      (∀ k, ∀ t ∈ lb.tracking.lookup k, t.consecutiveLosses < 2 ∧
        (t.owned = false → t.consecutiveLosses = 0)) ∧
      countTracked lb.tracking (fun t => 0 < t.consecutiveLosses) =
        countTracked lb.tracking fun t => t.owned && 0 < t.consecutiveLosses := by
  have hrun := run_apply (new 9 ⟨true, 2, 5⟩) lostTwice
  exact ⟨_, hrun, tracking_invariant 9 ⟨true, 2, 5⟩ (by decide) lostTwice _ hrun⟩

/-! ## At capacity -/

/-- Only a thread that is overdue by half as much again as the delay is taken over. -/
def criticalOnly (threadTakeoverDelay : ℤ) (isOverdue : Bool) (overdueSeconds : ℤ) :
    ProcessDecision :=
  if isOverdue = true ∧ threadTakeoverDelay * 3 / 2 < overdueSeconds then .process
  else .atCapacity

/-- The delay itself is not exceeded without half as much again being, and three times the
delay is a number of seconds. With balancing off every thread is processed. -/
def Critical (lb : LoadBalancer) (isOverdue : Bool) (overdueSeconds : ℤ) : Prop :=
  if lb.config.enabled = true then
    isOverdue = true →
      if lb.config.threadTakeoverDelay < overdueSeconds then
        lb.config.threadTakeoverDelay * 3 / 2 < overdueSeconds
      else lb.config.threadTakeoverDelay * 3 < 2 ^ 63
  else isOverdue = true ∧ lb.config.threadTakeoverDelay * 3 / 2 < overdueSeconds

/-- The capacity is looked at before the decision, which can only set it. -/
theorem checkCapacity_atCapacity {lb : LoadBalancer} (hcapacity : lb.atCapacity = true) :
    lb.checkCapacity.atCapacity = true := by
  unfold checkCapacity
  simp only
  split_ifs
  · rfl
  · exact hcapacity

/-- The answer to a question is the decision in a state with the same configuration, which is
at capacity if the state before is. -/
theorem shouldProcess_answer {lb : LoadBalancer} (henabled : lb.config.enabled = true)
    (hcapacity : lb.atCapacity = true) (k lastExecutor : Pubkey) (isOverdue : Bool)
    (overdueSeconds : ℤ) :
    ∃ lb' : LoadBalancer, lb'.config = lb.config ∧ lb'.atCapacity = true ∧
      (lb.shouldProcess k lastExecutor isOverdue overdueSeconds).2 =
        lb'.decision
          ((lb.shouldProcess k lastExecutor isOverdue overdueSeconds).1.track k).owned
          lastExecutor isOverdue overdueSeconds := by
  rw [shouldProcess_track henabled, if_pos rfl]
  simp only [shouldProcess, henabled, Bool.true_eq_false, if_false]
  split_ifs with hcheck
  · exact ⟨(lb.setTrack k _).checkCapacity, by simp, checkCapacity_atCapacity hcapacity, rfl⟩
  · exact ⟨lb.setTrack k _, by simp, hcapacity, rfl⟩

/-- The decision on a thread of others at capacity. -/
theorem decision_eq_criticalOnly_iff {lb : LoadBalancer} (henabled : lb.config.enabled = true)
    (hcapacity : lb.atCapacity = true) (hdelay : 0 ≤ lb.config.threadTakeoverDelay)
    (lastExecutor : Pubkey) (isOverdue : Bool) (overdueSeconds : ℤ) :
    lb.decision false lastExecutor isOverdue overdueSeconds =
        .ok (criticalOnly lb.config.threadTakeoverDelay isOverdue overdueSeconds) ↔
      lb.Critical isOverdue overdueSeconds := by
  unfold decision criticalOnly Critical
  cases isOverdue with
  | false => simp [hcapacity, henabled]
  | true =>
    simp only [Bool.false_eq_true, if_false, true_and, hcapacity, if_true, henabled,
      true_implies]
    by_cases hdelayed : lb.config.threadTakeoverDelay < overdueSeconds
    · simp only [hdelayed, if_true]
      by_cases hcritical : lb.config.threadTakeoverDelay * 3 / 2 < overdueSeconds
      · simp [hcritical]
      · simp [hcritical]
    · -- what is not beyond the delay is not beyond half as much again
      have hnot : ¬ lb.config.threadTakeoverDelay * 3 / 2 < overdueSeconds := by omega
      have htdiv : (lb.config.threadTakeoverDelay * 3).tdiv 2 =
          lb.config.threadTakeoverDelay * 3 / 2 := Int.tdiv_eq_ediv_of_nonneg (by omega)
      simp only [hdelayed, if_false, hnot]
      by_cases hfits : lb.config.threadTakeoverDelay * 3 < 2 ^ 63
      · have hcheck : checkI64 (lb.config.threadTakeoverDelay * 3) =
            .ok (lb.config.threadTakeoverDelay * 3) := checkI64_eq_ok.mpr ⟨⟨by omega, hfits⟩, rfl⟩
        refine iff_of_true ?_ hfits
        simp only [hcheck, bind_eq_ok, Except.ok.injEq, exists_eq_left', htdiv, if_neg hnot,
          pure_eq_ok]
      · have hcheck : checkI64 (lb.config.threadTakeoverDelay * 3) = .error .panic :=
          if_neg fun hrange => hfits hrange.2
        refine iff_of_false ?_ hfits
        simp [hcheck, bind, Except.bind]

/-- At capacity the answer for a thread that is not ours is that only a critically overdue
thread is processed, if and only if the thread is not overdue by a time between the delay and
half as much again. -/
theorem shouldProcess_at_capacity_iff (lb : LoadBalancer) (hcapacity : lb.atCapacity = true)
    (hdelay : 0 ≤ lb.config.threadTakeoverDelay) (k lastExecutor : Pubkey) (isOverdue : Bool)
    (overdueSeconds : ℤ)
    (hforeign : ((lb.shouldProcess k lastExecutor isOverdue overdueSeconds).1.track k).owned =
      false) :
    (lb.shouldProcess k lastExecutor isOverdue overdueSeconds).2 =
        .ok (criticalOnly lb.config.threadTakeoverDelay isOverdue overdueSeconds) ↔
      lb.Critical isOverdue overdueSeconds := by
  by_cases henabled : lb.config.enabled = true
  · obtain ⟨lb', hconfig, hcapacity', hanswer⟩ :=
      shouldProcess_answer henabled hcapacity k lastExecutor isOverdue overdueSeconds
    rw [hanswer, hforeign]
    have hdecision := decision_eq_criticalOnly_iff (by rw [hconfig]; exact henabled) hcapacity'
      (by rw [hconfig]; exact hdelay) lastExecutor isOverdue overdueSeconds
    unfold Critical at hdecision ⊢
    rw [hconfig] at hdecision
    exact hdecision
  · rw [shouldProcess_disabled (Bool.eq_false_of_not_eq_true henabled), Critical, if_neg henabled,
      criticalOnly]
    split_ifs with hcritical
    · exact iff_of_true rfl hcritical
    · exact iff_of_false (by simp) hcritical

/-- Threads 1 and 2 become ours. Thread 2 is lost once and thread 1 released, which leaves us
at capacity. -/
def overloaded : List Call :=
  [.recordExecutionResult 1 true 100, .recordExecutionResult 2 true 100,
    .recordExecutionResult 2 false 101, .recordExecutionResult 1 false 102,
    .recordExecutionResult 1 false 103]

/-- Thread 3 is another executor's and overdue by six seconds, with a delay of five. -/
theorem taken_over_at_capacity :
    ∃ lb : LoadBalancer, Run Step (new 9 ⟨true, 2, 5⟩) overloaded lb ∧ lb.atCapacity = true ∧
      ((lb.shouldProcess 3 8 true 6).1.track 3).owned = false ∧
      ¬ lb.config.threadTakeoverDelay * 3 / 2 < 6 ∧
      (lb.shouldProcess 3 8 true 6).2 = .ok .process := by
  refine ⟨overloaded.foldl apply (new 9 ⟨true, 2, 5⟩), run_apply _ _, ?_⟩
  decide +kernel

/-- Overdue by eight seconds it may be taken over. -/
theorem taken_over_when_critical :
    ((overloaded.foldl apply (new 9 ⟨true, 2, 5⟩)).shouldProcess 3 8 true 8).2 =
      .ok (criticalOnly 5 true 8) :=
  (shouldProcess_at_capacity_iff (overloaded.foldl apply (new 9 ⟨true, 2, 5⟩))
    (by decide +kernel) (by decide +kernel) 3 8 true 8 (by decide +kernel)).mpr
    (by unfold Critical; decide +kernel)

end LoadBalancer

end Antegen.Client
