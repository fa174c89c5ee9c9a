import Antegen.LoadBalancer
import Antegen.Transition

/-!
# Losses and lost executions

The chain executes a thread for one executor after another. The load balancer learns of it
by the last executor only, each time a worker asks whether to process the thread, and by the
results of its own submissions. It counts a loss on each of these occasions, whether or not
there was another execution in between.
-/
namespace Antegen.Client

open Transition

/-- The load balancer, the executors of each thread on the chain from the last one back, and
the threads that a worker was told to process. -/
structure Contest where
  lb : LoadBalancer
  executions : Pubkey → List Pubkey
  working : Pubkey → Bool

inductive ContestEvent
  | executed (threadPubkey executor : Pubkey)
  | shouldProcess (threadPubkey : Pubkey) (isOverdue : Bool) (overdueSeconds : ℤ)
  | recordResult (threadPubkey : Pubkey) (success : Bool) (currentTimestamp : ℤ)
  deriving DecidableEq, Repr

namespace Contest

def lastExecutor (s : Contest) (k : Pubkey) : Pubkey := (s.executions k).headD nobody

/-- Executions by others since our last one. -/
def lost (s : Contest) (k : Pubkey) : ℕ :=
  ((s.executions k).takeWhile (· ≠ s.lb.executorPubkey)).length

/-- What happens on the chain or in a worker. A worker asks with the current last executor. It
records results while it processes the thread, and successes that there were. -/
def apply (s : Contest) : ContestEvent → Option Contest
  | .executed k executor =>
    if executor = nobody then none
    else some { s with executions := Function.update s.executions k (executor :: s.executions k) }
  | .shouldProcess k isOverdue overdueSeconds =>
    let answer := s.lb.shouldProcess k (s.lastExecutor k) isOverdue overdueSeconds
    some { s with
      lb := answer.1
      working := Function.update s.working k (decide (answer.2.toOption = some .process)) }
  | .recordResult k success currentTimestamp =>
    if s.working k && (!success || (s.executions k).contains s.lb.executorPubkey) then
      some { s with lb := s.lb.recordExecutionResult k success currentTimestamp }
    else none

def Step (s : Contest) (ev : ContestEvent) (s' : Contest) : Prop := s.apply ev = some s'

/-- The losses counted for an owned thread are executions that were lost, and so is the whole
threshold when the thread is released. -/
structure Honest (s s' : Contest) (k : Pubkey) : Prop where
  counted : (s'.lb.track k).owned = true → (s'.lb.track k).consecutiveLosses ≤ s'.lost k
  released : (s.lb.track k).owned = true → (s'.lb.track k).owned = false →
    s.lb.config.capacityThreshold ≤ s'.lost k

/-- After every call, for the thread it is about. -/
def Law (s : Contest) (ev : ContestEvent) (s' : Contest) : Prop :=
  match ev with
  | .executed _ _ => True
  | .shouldProcess k _ _ => s.Honest s' k
  | .recordResult k _ _ => s.Honest s' k

/-- There is a lost execution that is not counted yet. -/
def Uncounted (s : Contest) (k : Pubkey) : Prop :=
  (s.lb.track k).owned = true → s.lb.config.capacityThreshold ≠ 0 →
    (s.lb.track k).consecutiveLosses < s.lost k

/-- A call that counts a loss finds an execution to count. A call with balancing off, which
leaves the tracking alone, finds no loss too many. -/
def Justified (s : Contest) : ContestEvent → Prop
  | .executed _ _ => True
  | .shouldProcess k _ _ =>
    if s.lb.config.enabled = true then
      s.lastExecutor k ≠ s.lb.executorPubkey → s.lastExecutor k ≠ nobody → s.Uncounted k
    else (s.lb.track k).owned = true → (s.lb.track k).consecutiveLosses ≤ s.lost k
  | .recordResult k success _ => success = false → s.Uncounted k

/-- The counter of an owned thread is below the threshold, and an owned thread was executed. -/
structure Consistent (s : Contest) : Prop where
  bounded : ∀ k, (s.lb.track k).owned = true → s.lb.config.capacityThreshold ≠ 0 →
    (s.lb.track k).consecutiveLosses < s.lb.config.capacityThreshold
  executors : ∀ k, nobody ∉ s.executions k
  known : s.lb.executorPubkey ≠ nobody → ∀ k, (s.lb.track k).owned = true → s.executions k ≠ []

/-- The client starts on a chain where nothing has been executed; executions before the first
call are events like any other. -/
def init (executorPubkey : Pubkey) (config : LoadBalancerConfig) : Contest where
  lb := LoadBalancer.new executorPubkey config
  executions := fun _ => []
  working := fun _ => false

end Contest

namespace LoadBalancer

variable (lb : LoadBalancer)

@[simp] theorem checkCapacity_config : lb.checkCapacity.config = lb.config := by
  unfold checkCapacity
  simp only
  split_ifs <;> rfl

@[simp] theorem checkCapacity_executorPubkey :
    lb.checkCapacity.executorPubkey = lb.executorPubkey := by
  unfold checkCapacity
  simp only
  split_ifs <;> rfl

@[simp] theorem setTrack_config (k : Pubkey) (t : ThreadTracking) :
    (lb.setTrack k t).config = lb.config :=
  rfl

@[simp] theorem setTrack_executorPubkey (k : Pubkey) (t : ThreadTracking) :
    (lb.setTrack k t).executorPubkey = lb.executorPubkey :=
  rfl

/-- Who we are and how we are configured does not change. -/
theorem shouldProcess_frame (k lastExecutor : Pubkey) (isOverdue : Bool) (overdueSeconds : ℤ) :
    (lb.shouldProcess k lastExecutor isOverdue overdueSeconds).1.config = lb.config ∧
      (lb.shouldProcess k lastExecutor isOverdue overdueSeconds).1.executorPubkey =
        lb.executorPubkey := by
  unfold shouldProcess
  simp only
  split_ifs <;> simp

theorem recordExecutionResult_frame (k : Pubkey) (success : Bool) (currentTimestamp : ℤ) :
    (lb.recordExecutionResult k success currentTimestamp).config = lb.config ∧
      (lb.recordExecutionResult k success currentTimestamp).executorPubkey =
        lb.executorPubkey := by
  unfold recordExecutionResult
  simp only
  split_ifs <;> simp

theorem shouldProcess_disabled {lb : LoadBalancer} (hdisabled : lb.config.enabled = false)
    (k lastExecutor : Pubkey) (isOverdue : Bool) (overdueSeconds : ℤ) :
    lb.shouldProcess k lastExecutor isOverdue overdueSeconds = (lb, .ok .process) :=
  if_pos hdisabled

/-- A loss keeps the counter below the threshold, or releases the thread. -/
theorem lose_cases {t : ThreadTracking} (howned : t.owned = true) :
    (lb.config.capacityThreshold ≤ t.consecutiveLosses + 1 ∧ (lb.lose t).owned = false) ∨
      (t.consecutiveLosses + 1 < lb.config.capacityThreshold ∧ (lb.lose t).owned = true ∧
        (lb.lose t).consecutiveLosses = t.consecutiveLosses + 1) := by
  unfold lose
  split_ifs with h
  · exact Or.inl ⟨h, rfl⟩
  · exact Or.inr ⟨not_le.mp h, howned, rfl⟩

end LoadBalancer

namespace Contest

/-- One more loss is honest exactly if an execution was lost that is not counted. -/
theorem honest_lose_iff (lb : LoadBalancer) {t : ThreadTracking} (howned : t.owned = true)
    (hbound : lb.config.capacityThreshold ≠ 0 →
      t.consecutiveLosses < lb.config.capacityThreshold) (n : ℕ) :
    (((lb.lose t).owned = true → (lb.lose t).consecutiveLosses ≤ n) ∧
      ((lb.lose t).owned = false → lb.config.capacityThreshold ≤ n)) ↔
      (lb.config.capacityThreshold ≠ 0 → t.consecutiveLosses < n) := by
  rcases lb.lose_cases howned with ⟨hle, hreleased⟩ | ⟨hlt, hkept, hlosses⟩
  · simp only [hreleased, Bool.false_eq_true, false_implies, true_and, true_implies]
    constructor
    · intro h hpos
      have hbelow := hbound hpos
      omega
    · intro h
      by_cases hzero : lb.config.capacityThreshold = 0
      · omega
      · have hbelow := hbound hzero
        have hlost := h hzero
        omega
  · simp only [hkept, hlosses, Bool.true_eq_false, false_implies, and_true, true_implies]
    constructor
    · intro h _
      omega
    · intro h
      have hlost := h (by omega)
      omega

/-- What a worker is told about a thread, as a change of its tracking. -/
def asked (s : Contest) (k : Pubkey) : ThreadTracking :=
  if s.lb.config.enabled = true then s.lb.updateOwnership (s.lastExecutor k) (s.lb.track k)
  else s.lb.track k

/-- A call leaves the tracking `t` for its thread, and the rest as it is. -/
structure Leaves (s s' : Contest) (k : Pubkey) (t : ThreadTracking) : Prop where
  executions : s'.executions = s.executions
  config : s'.lb.config = s.lb.config
  executorPubkey : s'.lb.executorPubkey = s.lb.executorPubkey
  track : ∀ j, s'.lb.track j = if j = k then t else s.lb.track j

theorem Leaves.track_self {s s' : Contest} {k : Pubkey} {t : ThreadTracking}
    (h : s.Leaves s' k t) : s'.lb.track k = t :=
  (h.track k).trans (if_pos rfl)

theorem Leaves.lost_eq {s s' : Contest} {k : Pubkey} {t : ThreadTracking}
    (h : s.Leaves s' k t) (j : Pubkey) : s'.lost j = s.lost j := by
  unfold lost
  rw [h.executions, h.executorPubkey]

theorem Leaves.consistent {s s' : Contest} {k : Pubkey} {t : ThreadTracking}
    (h : s.Leaves s' k t) (hs : s.Consistent)
    (hbounded : t.owned = true → s.lb.config.capacityThreshold ≠ 0 →
      t.consecutiveLosses < s.lb.config.capacityThreshold)
    (hknown : s.lb.executorPubkey ≠ nobody → t.owned = true → s.executions k ≠ []) :
    s'.Consistent := by
  refine ⟨fun j => ?_, ?_, fun hus j => ?_⟩
  · rw [h.track j, h.config]
    split_ifs with hj
    · exact hbounded
    · exact hs.bounded j
  · rw [h.executions]
    exact hs.executors
  · rw [h.executorPubkey] at hus
    rw [h.track j, h.executions]
    split_ifs with hj
    · rw [hj]
      exact hknown hus
    · exact hs.known hus j

theorem Step.shouldProcess_leaves {s s' : Contest} {k : Pubkey} {isOverdue : Bool}
    {overdueSeconds : ℤ} (h : Step s (.shouldProcess k isOverdue overdueSeconds) s') :
    s.Leaves s' k (s.asked k) := by
  obtain rfl := Option.some.inj h
  obtain ⟨hconfig, hself⟩ :=
    s.lb.shouldProcess_frame k (s.lastExecutor k) isOverdue overdueSeconds
  refine ⟨rfl, hconfig, hself, fun j => ?_⟩
  unfold asked
  by_cases henabled : s.lb.config.enabled = true
  · rw [if_pos henabled]
    exact LoadBalancer.shouldProcess_track henabled k (s.lastExecutor k) isOverdue overdueSeconds j
  · have hoff := LoadBalancer.shouldProcess_disabled (Bool.eq_false_of_not_eq_true henabled) k
      (s.lastExecutor k) isOverdue overdueSeconds
    rw [if_neg henabled]
    change (s.lb.shouldProcess k (s.lastExecutor k) isOverdue overdueSeconds).1.track j = _
    rw [hoff]
    split_ifs with hj
    · rw [hj]
    · rfl

theorem Step.recordResult_leaves {s s' : Contest} {k : Pubkey} {success : Bool}
    {currentTimestamp : ℤ} (h : Step s (.recordResult k success currentTimestamp) s') :
    (success = true → s.lb.executorPubkey ∈ s.executions k) ∧
      s.Leaves s' k (s.lb.resultTrack success currentTimestamp (s.lb.track k)) := by
  unfold Step apply at h
  simp only at h
  split_ifs at h with hcan
  obtain rfl := Option.some.inj h
  obtain ⟨hconfig, hself⟩ := s.lb.recordExecutionResult_frame k success currentTimestamp
  simp only [Bool.and_eq_true, Bool.or_eq_true, Bool.not_eq_true', List.contains_iff_mem] at hcan
  have hours : success = true → s.lb.executorPubkey ∈ s.executions k := fun hsuccess =>
    hcan.2.resolve_left (by simp [hsuccess])
  exact ⟨hours, rfl, hconfig, hself, s.lb.recordExecutionResult_track k success currentTimestamp⟩

theorem Step.executed_eq {s s' : Contest} {k executor : Pubkey}
    (h : Step s (.executed k executor) s') :
    s'.lb = s.lb ∧ executor ≠ nobody ∧
      s'.executions = Function.update s.executions k (executor :: s.executions k) := by
  unfold Step apply at h
  simp only at h
  split_ifs at h with hsome
  obtain rfl := Option.some.inj h
  exact ⟨rfl, hsome, rfl⟩

/-- A loss keeps the bound. -/
theorem lose_bounded {lb : LoadBalancer} {t : ThreadTracking} (howned : t.owned = true)
    (hkept : (lb.lose t).owned = true) :
    (lb.lose t).consecutiveLosses < lb.config.capacityThreshold := by
  rcases lb.lose_cases howned with ⟨-, hreleased⟩ | ⟨hlt, -, hlosses⟩
  · exact absurd (hreleased.symm.trans hkept) (by simp)
  · rw [hlosses]
    exact hlt

/-- A thread becomes ours only if we executed it last. -/
theorem owned_of_asked {s : Contest} {k : Pubkey} (h : (s.asked k).owned = true) :
    s.lastExecutor k = s.lb.executorPubkey ∨ (s.lb.track k).owned = true := by
  unfold asked LoadBalancer.updateOwnership at h
  split_ifs at h with henabled hus hforeign
  · exact Or.inl hus
  · exact Or.inr hforeign.2
  · exact Or.inr h
  · exact Or.inr h

theorem asked_bounded {s : Contest} (hs : s.Consistent) (k : Pubkey)
    (howned : (s.asked k).owned = true) (hpos : s.lb.config.capacityThreshold ≠ 0) :
    (s.asked k).consecutiveLosses < s.lb.config.capacityThreshold := by
  revert howned
  unfold asked LoadBalancer.updateOwnership
  split_ifs with henabled hus hforeign
  · intro _
    exact Nat.pos_of_ne_zero hpos
  · intro hkept
    exact lose_bounded hforeign.2 hkept
  · intro howned
    exact hs.bounded k howned hpos
  · intro howned
    exact hs.bounded k howned hpos

theorem resultTrack_bounded {s : Contest} (hs : s.Consistent) (k : Pubkey) (success : Bool)
    (currentTimestamp : ℤ)
    (howned : (s.lb.resultTrack success currentTimestamp (s.lb.track k)).owned = true)
    (hpos : s.lb.config.capacityThreshold ≠ 0) :
    (s.lb.resultTrack success currentTimestamp (s.lb.track k)).consecutiveLosses <
      s.lb.config.capacityThreshold := by
  revert howned
  unfold LoadBalancer.resultTrack
  simp only
  split_ifs with hsuccess hwas
  · intro _
    exact Nat.pos_of_ne_zero hpos
  · intro hkept
    exact lose_bounded hwas hkept
  · intro howned
    exact hs.bounded k howned hpos

/-- The step lemma for consistency. -/
theorem Step.consistent {s s' : Contest} {ev : ContestEvent} (h : Step s ev s')
    (hs : s.Consistent) : s'.Consistent := by
  cases ev with
  | executed k executor =>
    obtain ⟨hlb, hsome, hexecutions⟩ := h.executed_eq
    refine ⟨?_, fun j => ?_, fun hus j howned => ?_⟩
    · rw [hlb]
      exact hs.bounded
    · rw [hexecutions]
      by_cases hj : j = k
      · subst hj
        rw [Function.update_self, List.mem_cons, not_or]
        exact ⟨hsome.symm, hs.executors j⟩
      · rw [Function.update_of_ne hj]
        exact hs.executors j
    · rw [hlb] at hus howned
      rw [hexecutions]
      by_cases hj : j = k
      · subst hj
        rw [Function.update_self]
        exact List.cons_ne_nil _ _
      · rw [Function.update_of_ne hj]
        exact hs.known hus j howned
  | shouldProcess k isOverdue overdueSeconds =>
    refine h.shouldProcess_leaves.consistent hs (asked_bounded hs k) fun hus howned hnone => ?_
    rcases owned_of_asked howned with hlast | hwas
    · refine hus (hlast.symm.trans ?_)
      unfold lastExecutor
      rw [hnone]
      rfl
    · exact hs.known hus k hwas hnone
  | recordResult k success currentTimestamp =>
    obtain ⟨hours, hleaves⟩ := h.recordResult_leaves
    refine hleaves.consistent hs (resultTrack_bounded hs k success currentTimestamp)
      fun hus howned => ?_
    cases success with
    | true => exact List.ne_nil_of_mem (hours rfl)
    | false =>
      refine hs.known hus k ?_
      unfold LoadBalancer.resultTrack at howned
      simp only [Bool.false_eq_true, if_false] at howned
      by_contra hnot
      rw [if_neg hnot] at howned
      exact hnot howned

theorem init_consistent (executorPubkey : Pubkey) (config : LoadBalancerConfig) :
    (init executorPubkey config).Consistent := by
  refine ⟨fun k howned => ?_, fun k => List.not_mem_nil, fun _ k howned => ?_⟩
  · exact absurd howned Bool.false_ne_true
  · exact absurd howned Bool.false_ne_true

/-- A call that leaves a thread to others is honest. -/
theorem honest_of_not_owned {s s' : Contest} {k : Pubkey} (h : (s.lb.track k).owned = false)
    (h' : (s'.lb.track k).owned = false) : s.Honest s' k :=
  ⟨fun howned => absurd (h'.symm.trans howned) Bool.false_ne_true,
    fun howned => absurd (h.symm.trans howned) Bool.false_ne_true⟩

/-- A call that resets the counter is honest. -/
theorem honest_of_reset {s s' : Contest} {k : Pubkey} (howned : (s'.lb.track k).owned = true)
    (hzero : (s'.lb.track k).consecutiveLosses = 0) : s.Honest s' k := by
  refine ⟨fun _ => ?_, fun _ hreleased => ?_⟩
  · rw [hzero]
    exact Nat.zero_le _
  · exact absurd (hreleased.symm.trans howned) Bool.false_ne_true

/-- A call that counts a loss is honest exactly if there is one to count. -/
theorem honest_iff_uncounted {s s' : Contest} (hs : s.Consistent) {k : Pubkey}
    {t : ThreadTracking} (htrack : s'.lb.track k = s.lb.lose t)
    (howned : t.owned = true) (hwas : (s.lb.track k).owned = true)
    (hlosses : t.consecutiveLosses = (s.lb.track k).consecutiveLosses)
    (hlost : s'.lost k = s.lost k) : s.Honest s' k ↔ s.Uncounted k := by
  have hiff := honest_lose_iff s.lb howned (fun hpos => by
    rw [hlosses]
    exact hs.bounded k hwas hpos) (s.lost k)
  rw [← htrack, hlosses] at hiff
  constructor
  · intro h _ hpos
    refine hiff.mp ⟨fun hkept => ?_, fun hreleased => ?_⟩ hpos
    · rw [← hlost]
      exact h.counted hkept
    · rw [← hlost]
      exact h.released hwas hreleased
  · intro h
    obtain ⟨hcounted, hreleased⟩ := hiff.mpr (h hwas)
    rw [← hlost] at hcounted hreleased
    exact ⟨hcounted, fun _ => hreleased⟩

/-- An owned thread whose last executor is nobody does not exist, unless that is who we are. -/
theorem Consistent.not_owned {s : Contest} (hs : s.Consistent) {k : Pubkey}
    (hother : s.lastExecutor k ≠ s.lb.executorPubkey) (hnobody : s.lastExecutor k = nobody) :
    (s.lb.track k).owned = false := by
  have hus : s.lb.executorPubkey ≠ nobody := fun hus => hother (hnobody.trans hus.symm)
  have hempty : s.executions k = [] := by
    cases hlist : s.executions k with
    | nil => rfl
    | cons executor rest =>
      refine absurd ?_ (hs.executors k)
      have hhead : executor = nobody := by
        rw [← hnobody, lastExecutor, hlist]
        rfl
      rw [hlist, hhead]
      exact List.mem_cons_self
  exact Bool.eq_false_of_not_eq_true fun howned => hs.known hus k howned hempty

theorem asked_honest_iff {s s' : Contest} (hs : s.Consistent) {k : Pubkey}
    (h : s.Leaves s' k (s.asked k)) (henabled : s.lb.config.enabled = true) :
    s.Honest s' k ↔
      (s.lastExecutor k ≠ s.lb.executorPubkey → s.lastExecutor k ≠ nobody → s.Uncounted k) := by
  have hk := h.track_self
  unfold asked LoadBalancer.updateOwnership at hk
  rw [if_pos henabled] at hk
  by_cases hus : s.lastExecutor k = s.lb.executorPubkey
  · rw [if_pos hus] at hk
    refine iff_of_true (honest_of_reset ?_ ?_) fun hother => absurd hus hother
    · rw [hk]
    · rw [hk]
  · rw [if_neg hus] at hk
    by_cases hforeign : s.lastExecutor k ≠ nobody ∧ (s.lb.track k).owned = true
    · rw [if_pos hforeign] at hk
      rw [honest_iff_uncounted hs hk hforeign.2 hforeign.2 rfl (h.lost_eq k)]
      exact ⟨fun hmissed _ _ => hmissed, fun hmissed => hmissed hus hforeign.1⟩
    · rw [if_neg hforeign] at hk
      have hnot : (s.lb.track k).owned = false := by
        by_cases hnobody : s.lastExecutor k = nobody
        · exact hs.not_owned hus hnobody
        · exact Bool.eq_false_of_not_eq_true fun howned => hforeign ⟨hnobody, howned⟩
      refine iff_of_true (honest_of_not_owned hnot ?_) fun _ _ howned => ?_
      · rw [hk]
        exact hnot
      · exact absurd (hnot.symm.trans howned) Bool.false_ne_true

/-- With balancing off the tracking is left as it is. -/
theorem unchanged_honest_iff {s s' : Contest} {k : Pubkey} (h : s.Leaves s' k (s.lb.track k)) :
    s.Honest s' k ↔
      ((s.lb.track k).owned = true → (s.lb.track k).consecutiveLosses ≤ s.lost k) := by
  constructor
  · intro honest
    rw [← h.track_self, ← h.lost_eq k]
    exact honest.counted
  · intro hfew
    rw [← h.track_self, ← h.lost_eq k] at hfew
    refine ⟨hfew, fun howned hreleased => ?_⟩
    rw [h.track_self] at hreleased
    exact absurd (hreleased.symm.trans howned) Bool.false_ne_true

theorem result_honest_iff {s s' : Contest} (hs : s.Consistent) {k : Pubkey} {success : Bool}
    {currentTimestamp : ℤ}
    (h : s.Leaves s' k (s.lb.resultTrack success currentTimestamp (s.lb.track k))) :
    s.Honest s' k ↔ (success = false → s.Uncounted k) := by
  have hk := h.track_self
  unfold LoadBalancer.resultTrack at hk
  simp only at hk
  cases success with
  | true =>
    rw [if_pos rfl] at hk
    refine iff_of_true (honest_of_reset ?_ ?_)
      fun hfailed => absurd hfailed.symm Bool.false_ne_true
    · rw [hk]
    · rw [hk]
  | false =>
    rw [if_neg Bool.false_ne_true] at hk
    by_cases howned : (s.lb.track k).owned = true
    · rw [if_pos howned] at hk
      rw [honest_iff_uncounted hs hk howned howned rfl (h.lost_eq k)]
      exact ⟨fun hmissed _ => hmissed, fun hmissed => hmissed rfl⟩
    · rw [if_neg howned] at hk
      have hnot := Bool.eq_false_of_not_eq_true howned
      refine iff_of_true (honest_of_not_owned hnot ?_) fun _ hwas => absurd hwas howned
      rw [hk]
      exact hnot

/-- The step lemma: under consistency a call is honest exactly if it is justified. -/
theorem Step.law_iff {s s' : Contest} {ev : ContestEvent} (h : Step s ev s')
    (hs : s.Consistent) : Law s ev s' ↔ s.Justified ev := by
  cases ev with
  | executed k executor => exact Iff.rfl
  | shouldProcess k isOverdue overdueSeconds =>
    have hleaves := h.shouldProcess_leaves
    simp only [Law, Justified]
    by_cases henabled : s.lb.config.enabled = true
    · rw [if_pos henabled]
      exact asked_honest_iff hs hleaves henabled
    · rw [if_neg henabled]
      unfold asked at hleaves
      rw [if_neg henabled] at hleaves
      exact unchanged_honest_iff hleaves
  | recordResult k success currentTimestamp => exact result_honest_iff hs h.recordResult_leaves.2

/-- The runs in which losses are lost executions after every call are the runs in which every
call is justified. -/
theorem losses_are_lost_executions_iff (executorPubkey : Pubkey) (config : LoadBalancerConfig)
    (events : List ContestEvent) (s : Contest) :
    Run (fun s ev s' => Step s ev s' ∧ Law s ev s') (init executorPubkey config) events s ↔
      Run (Guarded Step Justified) (init executorPubkey config) events s :=
  Run.lawful_iff (fun _ _ _ hs h => h.consistent hs) (fun _ _ _ hs h => h.law_iff hs)
    (init_consistent executorPubkey config)

/-- Executor 9 executed thread 1, then 8 did. A worker asks about it twice. -/
def askedTwice : List ContestEvent :=
  [.executed 1 9, .shouldProcess 1 false 0, .executed 1 8, .shouldProcess 1 false 0,
    .shouldProcess 1 false 0]

/-- One lost execution counts as two losses, and after another question the thread is
released at the threshold of three. -/
theorem loss_is_counted_twice :
    ∃ s s' : Contest, Run Step (init 9 ⟨true, 3, 5⟩) askedTwice s ∧
      (s.lb.track 1).owned = true ∧ (s.lb.track 1).consecutiveLosses = 2 ∧ s.lost 1 = 1 ∧
      Step s (.shouldProcess 1 false 0) s' ∧ (s'.lb.track 1).owned = false ∧ s'.lost 1 = 1 := by
  have hevaluated : ∃ s ∈ askedTwice.foldlM apply (init 9 ⟨true, 3, 5⟩),
      ((s.lb.track 1).owned = true ∧ (s.lb.track 1).consecutiveLosses = 2 ∧ s.lost 1 = 1) ∧
      ∃ s' ∈ s.apply (.shouldProcess 1 false 0),
        (s'.lb.track 1).owned = false ∧ s'.lost 1 = 1 := by
    decide +kernel
  obtain ⟨s, hs, ⟨howned, hlosses, hlost⟩, s', hs', hreleased, hlost'⟩ := hevaluated
  have hrun : Run (Guarded Step fun _ _ => True) (init 9 ⟨true, 3, 5⟩) askedTwice s :=
    Run.of_forall (fun _ _ => trivial) hs
  exact ⟨s, s', hrun.mono fun _ _ _ hstep => hstep.2, howned, hlosses, hlost, hs', hreleased,
    hlost'⟩

end Contest

end Antegen.Client
