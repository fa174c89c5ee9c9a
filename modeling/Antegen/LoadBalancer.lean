import Mathlib.Data.List.AList
import Antegen.Basic

/-!
# The load balancer

Executors compete for threads. A thread that we executed last is ours, and it is released
after a number of losses in a row. A loss is counted in two places: when another executor is
found to have executed a thread of ours, and when a submission of ours fails. Both release
the thread at the threshold. Whether we are at capacity is looked at again in the second
place only; the first tests the counter after it was reset.

A counter below the threshold does not overflow. The lock on the tracking is held for one
call at a time.
-/
namespace Antegen.Client

structure LoadBalancerConfig where
  enabled : Bool
  capacityThreshold : ℕ
  threadTakeoverDelay : ℤ
  deriving DecidableEq, Repr

structure ThreadTracking where
  consecutiveLosses : ℕ := 0
  owned : Bool := false
  lastAttempt : Option ℤ := none
  deriving DecidableEq, Repr, Inhabited

inductive ProcessDecision
  | process
  | skip
  | atCapacity
  deriving DecidableEq, Repr

structure LoadBalancer where
  executorPubkey : Pubkey
  config : LoadBalancerConfig
  tracking : AList fun _ : Pubkey => ThreadTracking
  atCapacity : Bool

/-- `Pubkey::default()`, for a thread that nobody has executed. -/
def nobody : Pubkey := 0

namespace LoadBalancer

def new (executorPubkey : Pubkey) (config : LoadBalancerConfig) : LoadBalancer :=
  ⟨executorPubkey, config, ∅, false⟩

/-- The entry of a thread, or the default one. -/
def track (lb : LoadBalancer) (threadPubkey : Pubkey) : ThreadTracking :=
  (lb.tracking.lookup threadPubkey).getD {}

def setTrack (lb : LoadBalancer) (threadPubkey : Pubkey) (t : ThreadTracking) : LoadBalancer :=
  { lb with tracking := lb.tracking.insert threadPubkey t }

/-- How many of the tracked threads have a property. -/
def countTracked (tracking : AList fun _ : Pubkey => ThreadTracking)
    (p : ThreadTracking → Bool) : ℕ :=
  (tracking.entries.filter fun entry => p entry.2).length

/-- Another loss of an owned thread; at the threshold the thread is released. -/
def lose (lb : LoadBalancer) (t : ThreadTracking) : ThreadTracking :=
  if lb.config.capacityThreshold ≤ t.consecutiveLosses + 1 then
    { t with owned := false, consecutiveLosses := 0 }
  else { t with consecutiveLosses := t.consecutiveLosses + 1 }

/-- At capacity is set if more threads are being lost than half of those owned. -/
def checkCapacity (lb : LoadBalancer) : LoadBalancer :=
  let ownedCount := countTracked lb.tracking ThreadTracking.owned
  let recentLosses := countTracked lb.tracking fun t => 0 < t.consecutiveLosses
  if 0 < ownedCount ∧ ownedCount / 2 < recentLosses then { lb with atCapacity := true } else lb

/-- What the last executor of a thread says about its ownership. -/
def updateOwnership (lb : LoadBalancer) (lastExecutor : Pubkey) (t : ThreadTracking) :
    ThreadTracking :=
  if lastExecutor = lb.executorPubkey then { t with owned := true, consecutiveLosses := 0 }
  else if lastExecutor ≠ nobody ∧ t.owned then lb.lose t
  else t

/-- The decision on a thread once its tracking is up to date. -/
def decision (lb : LoadBalancer) (owned : Bool) (lastExecutor : Pubkey) (isOverdue : Bool)
    (overdueSeconds : ℤ) : Result ProcessDecision :=
  if owned then .ok .process
  else if isOverdue ∧ lb.config.threadTakeoverDelay < overdueSeconds then .ok .process
  else if lb.atCapacity then
    if isOverdue then do
      let critical ← checkI64 (lb.config.threadTakeoverDelay * 3)
      if critical.tdiv 2 < overdueSeconds then pure .process else pure .atCapacity
    else .ok .atCapacity
  else if lastExecutor = nobody then .ok .process
  else .ok .skip

def shouldProcess (lb : LoadBalancer) (threadPubkey lastExecutor : Pubkey) (isOverdue : Bool)
    (overdueSeconds : ℤ) : LoadBalancer × Result ProcessDecision :=
  if lb.config.enabled = false then (lb, .ok .process)
  else
    let t := lb.updateOwnership lastExecutor (lb.track threadPubkey)
    let lb := lb.setTrack threadPubkey t
    -- the counter is zero again if the thread was released
    let lb := if lb.config.capacityThreshold ≤ t.consecutiveLosses then lb.checkCapacity else lb
    (lb, lb.decision t.owned lastExecutor isOverdue overdueSeconds)

def recordExecutionResult (lb : LoadBalancer) (threadPubkey : Pubkey) (success : Bool)
    (currentTimestamp : ℤ) : LoadBalancer :=
  let t := { lb.track threadPubkey with lastAttempt := some currentTimestamp }
  if success then
    let lb' := lb.setTrack threadPubkey { t with owned := true, consecutiveLosses := 0 }
    if t.owned then lb' else { lb' with atCapacity := false }
  else if t.owned then
    let lb' := lb.setTrack threadPubkey (lb.lose t)
    if lb.config.capacityThreshold ≤ t.consecutiveLosses + 1 then lb'.checkCapacity else lb'
  else lb.setTrack threadPubkey t

/-! ## The tracking of a thread -/

theorem track_setTrack (lb : LoadBalancer) (k j : Pubkey) (t : ThreadTracking) :
    (lb.setTrack k t).track j = if j = k then t else lb.track j := by
  unfold track setTrack
  by_cases h : j = k
  · subst h
    simp
  · simp [h, AList.lookup_insert_ne h]

@[simp] theorem track_checkCapacity (lb : LoadBalancer) (j : Pubkey) :
    lb.checkCapacity.track j = lb.track j := by
  unfold checkCapacity
  simp only
  split_ifs <;> rfl

theorem countTracked_insert (tracking : AList fun _ : Pubkey => ThreadTracking) (k : Pubkey)
    (t : ThreadTracking) (p : ThreadTracking → Bool) :
    countTracked (tracking.insert k t) p =
      (if p t then 1 else 0) + countTracked (tracking.erase k) p := by
  unfold countTracked
  rw [AList.entries_insert, List.filter_cons]
  simp only
  split_ifs
  · rw [List.length_cons, Nat.add_comm]
    rfl
  · rw [Nat.zero_add]
    rfl

theorem shouldProcess_track {lb : LoadBalancer} (henabled : lb.config.enabled = true)
    (k lastExecutor : Pubkey) (isOverdue : Bool) (overdueSeconds : ℤ) (j : Pubkey) :
    (lb.shouldProcess k lastExecutor isOverdue overdueSeconds).1.track j =
      if j = k then lb.updateOwnership lastExecutor (lb.track k) else lb.track j := by
  simp only [shouldProcess, henabled, Bool.true_eq_false, if_false]
  split_ifs with hcheck hj hj
  · rw [track_checkCapacity, track_setTrack, if_pos hj]
  · rw [track_checkCapacity, track_setTrack, if_neg hj]
  · rw [track_setTrack, if_pos hj]
  · rw [track_setTrack, if_neg hj]

/-- The tracking that a result leaves for the thread. -/
def resultTrack (lb : LoadBalancer) (success : Bool) (currentTimestamp : ℤ)
    (t : ThreadTracking) : ThreadTracking :=
  let t := { t with lastAttempt := some currentTimestamp }
  if success then { t with owned := true, consecutiveLosses := 0 }
  else if t.owned then lb.lose t
  else t

theorem recordExecutionResult_track (lb : LoadBalancer) (k : Pubkey) (success : Bool)
    (currentTimestamp : ℤ) (j : Pubkey) :
    (lb.recordExecutionResult k success currentTimestamp).track j =
      if j = k then lb.resultTrack success currentTimestamp (lb.track k) else lb.track j := by
  unfold recordExecutionResult resultTrack
  cases success with
  | true =>
    simp only [if_true]
    split_ifs with howned hj hj
    · rw [track_setTrack, if_pos hj]
    · rw [track_setTrack, if_neg hj]
    · exact (track_setTrack lb k j _).trans (if_pos hj)
    · exact (track_setTrack lb k j _).trans (if_neg hj)
  | false =>
    simp only [Bool.false_eq_true, if_false]
    by_cases howned : (lb.track k).owned = true
    · simp only [howned, if_true]
      split_ifs with hcheck hj hj
      · rw [track_checkCapacity, track_setTrack, if_pos hj]
      · rw [track_checkCapacity, track_setTrack, if_neg hj]
      · rw [track_setTrack, if_pos hj]
      · rw [track_setTrack, if_neg hj]
    · simp only [howned, Bool.false_eq_true, if_false]
      rw [track_setTrack]

/-! ## The two ways to lose a thread -/

/-- Same ownership and losses of every thread, and same capacity. -/
structure SameState (lb lb' : LoadBalancer) : Prop where
  owned : ∀ k, (lb.track k).owned = (lb'.track k).owned
  losses : ∀ k, (lb.track k).consecutiveLosses = (lb'.track k).consecutiveLosses
  atCapacity : lb.atCapacity = lb'.atCapacity

/-- The other threads show that we are at capacity. -/
def Overloaded (tracking : AList fun _ : Pubkey => ThreadTracking) : Prop :=
  0 < countTracked tracking ThreadTracking.owned ∧
    countTracked tracking ThreadTracking.owned / 2 <
      countTracked tracking fun t => 0 < t.consecutiveLosses

theorem lose_at_threshold {lb : LoadBalancer} {t : ThreadTracking}
    (h : t.consecutiveLosses + 1 = lb.config.capacityThreshold) :
    lb.lose t = { t with owned := false, consecutiveLosses := 0 } := by
  unfold lose
  rw [if_pos h.ge]

/-- A released thread does not count. -/
theorem checkCapacity_released {lb : LoadBalancer} {k : Pubkey} {t : ThreadTracking}
    (howned : t.owned = false) (hlosses : t.consecutiveLosses = 0) :
    ((lb.setTrack k t).checkCapacity.atCapacity = true) ↔
      lb.atCapacity = true ∨ Overloaded (lb.tracking.erase k) := by
  unfold checkCapacity Overloaded setTrack
  simp only [countTracked_insert, howned, hlosses, Nat.lt_irrefl, decide_false,
    Bool.false_eq_true, if_false, Nat.zero_add]
  split_ifs with h
  · simp [h]
  · simp [h]

/-- The loss at the threshold that another executor causes. -/
theorem updateOwnership_release {lb : LoadBalancer} {t : ThreadTracking}
    (howned : t.owned = true) (hnext : t.consecutiveLosses + 1 = lb.config.capacityThreshold)
    {lastExecutor : Pubkey} (hother : lastExecutor ≠ lb.executorPubkey)
    (hsome : lastExecutor ≠ nobody) :
    lb.updateOwnership lastExecutor t = { t with owned := false, consecutiveLosses := 0 } := by
  unfold updateOwnership
  rw [if_neg hother, if_pos ⟨hsome, howned⟩, lose_at_threshold hnext]

/-- The same loss by a failed submission. -/
theorem resultTrack_release {lb : LoadBalancer} {t : ThreadTracking} (howned : t.owned = true)
    (hnext : t.consecutiveLosses + 1 = lb.config.capacityThreshold) (currentTimestamp : ℤ) :
    lb.resultTrack false currentTimestamp t =
      { t with
        owned := false, consecutiveLosses := 0, lastAttempt := some currentTimestamp } := by
  simp only [resultTrack, Bool.false_eq_true, if_false, howned, if_true]
  exact lose_at_threshold hnext

/-- A counter that was reset does not reach the threshold, so the capacity is not looked at. -/
theorem shouldProcess_release_atCapacity {lb : LoadBalancer}
    (henabled : lb.config.enabled = true) (hthreshold : 1 ≤ lb.config.capacityThreshold)
    {k lastExecutor : Pubkey}
    (hreset : (lb.updateOwnership lastExecutor (lb.track k)).consecutiveLosses = 0)
    (isOverdue : Bool) (overdueSeconds : ℤ) :
    (lb.shouldProcess k lastExecutor isOverdue overdueSeconds).1.atCapacity = lb.atCapacity := by
  simp only [shouldProcess, henabled, Bool.true_eq_false, if_false, hreset]
  rw [if_neg (show ¬ (lb.setTrack k _).config.capacityThreshold ≤ 0 by
    change ¬ lb.config.capacityThreshold ≤ 0
    omega)]
  rfl

/-- A failed submission that releases the thread looks at the capacity of the others. -/
theorem recordExecutionResult_release_atCapacity {lb : LoadBalancer} {k : Pubkey}
    (howned : (lb.track k).owned = true)
    (hnext : (lb.track k).consecutiveLosses + 1 = lb.config.capacityThreshold)
    (currentTimestamp : ℤ) :
    (lb.recordExecutionResult k false currentTimestamp).atCapacity = true ↔
      lb.atCapacity = true ∨ Overloaded (lb.tracking.erase k) := by
  simp only [recordExecutionResult, Bool.false_eq_true, if_false, howned, if_true, hnext, le_refl]
  refine checkCapacity_released ?_ ?_
  · simp only [lose, hnext, le_refl, if_true]
  · simp only [lose, hnext, le_refl, if_true]

/-- At the threshold both ways lead to the same state if and only if we are at capacity
already or the other threads do not show it. -/
theorem loss_paths_agree_iff {lb : LoadBalancer} (henabled : lb.config.enabled = true)
    (hthreshold : 1 ≤ lb.config.capacityThreshold) {k : Pubkey}
    (howned : (lb.track k).owned = true)
    (hlosses : (lb.track k).consecutiveLosses = lb.config.capacityThreshold - 1)
    {lastExecutor : Pubkey} (hother : lastExecutor ≠ lb.executorPubkey)
    (hsome : lastExecutor ≠ nobody) (isOverdue : Bool) (overdueSeconds currentTimestamp : ℤ) :
    SameState (lb.shouldProcess k lastExecutor isOverdue overdueSeconds).1
        (lb.recordExecutionResult k false currentTimestamp) ↔
      lb.atCapacity = true ∨ ¬ Overloaded (lb.tracking.erase k) := by
  have hnext : (lb.track k).consecutiveLosses + 1 = lb.config.capacityThreshold := by omega
  have hrelease := updateOwnership_release howned hnext hother hsome
  have hresult := resultTrack_release howned hnext currentTimestamp
  have hkept := shouldProcess_release_atCapacity henabled hthreshold
    (congrArg ThreadTracking.consecutiveLosses hrelease) isOverdue overdueSeconds
  have hrecord := recordExecutionResult_release_atCapacity howned hnext currentTimestamp
  constructor
  · intro hsame
    by_cases hcap : lb.atCapacity = true
    · exact Or.inl hcap
    · refine Or.inr fun hover => hcap ?_
      rw [← hkept, hsame.atCapacity]
      exact hrecord.mpr (Or.inr hover)
  · intro hcond
    refine ⟨fun j => ?_, fun j => ?_, ?_⟩
    · rw [shouldProcess_track henabled, recordExecutionResult_track, hrelease, hresult]
      split_ifs <;> rfl
    · rw [shouldProcess_track henabled, recordExecutionResult_track, hrelease, hresult]
      split_ifs <;> rfl
    · rw [hkept, Bool.eq_iff_iff, hrecord]
      constructor
      · intro hcap
        exact Or.inl hcap
      · rintro (hcap | hover)
        · exact hcap
        · exact hcond.resolve_right fun hnot => hnot hover

/-- Executor 9 owns thread 1 with two losses, and thread 2 with the given number. -/
def twoOwned (losses : ℕ) : LoadBalancer where
  executorPubkey := 9
  config := ⟨true, 3, 5⟩
  tracking := ((∅ : AList fun _ : Pubkey => ThreadTracking).insert 2 ⟨losses, true, none⟩).insert 1
    ⟨2, true, none⟩
  atCapacity := false

/-- The third loss of thread 1, with thread 2 lost once: only the failed submission notices
that we are at capacity. -/
theorem loss_paths_differ :
    ((twoOwned 1).track 1).owned = true ∧ ((twoOwned 1).track 1).consecutiveLosses = 3 - 1 ∧
      ¬ SameState ((twoOwned 1).shouldProcess 1 8 false 0).1
        ((twoOwned 1).recordExecutionResult 1 false 100) := by
  refine ⟨rfl, rfl, fun hsame => ?_⟩
  have hcap := hsame.atCapacity
  revert hcap
  decide +kernel

theorem loss_paths_agree :
    SameState ((twoOwned 0).shouldProcess 1 8 false 0).1
      ((twoOwned 0).recordExecutionResult 1 false 100) := by
  refine (loss_paths_agree_iff rfl (by decide) rfl rfl (by decide) (by decide) false 0 100).mpr
    (Or.inr ?_)
  unfold Overloaded
  decide +kernel

end LoadBalancer

end Antegen.Client
