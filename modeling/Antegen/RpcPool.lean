import Mathlib.Data.List.FinRange
import Antegen.Transition

/-!
# The RPC pool

A request goes to the available endpoints of its role one after another, until one of them
answers. Every outcome moves two counters of its endpoint, and they move its health. Only
endpoints that are not unhealthy are asked. So an unhealthy endpoint has no outcomes, its
three successes in a row never come, and it stays out for good.

The requests are taken one at a time. The moving average of the latency is computed with
floating point numbers and is a parameter.
-/
namespace Antegen.Client

open Transition

inductive EndpointHealth
  | healthy
  | degraded
  | unhealthy
  deriving DecidableEq, Repr

inductive EndpointRole
  | submission
  | datasource
  | both
  deriving DecidableEq, Repr

def EndpointRole.canSubmit : EndpointRole → Bool
  | .submission => true
  | .both => true
  | .datasource => false

def EndpointRole.canFetch : EndpointRole → Bool
  | .datasource => true
  | .both => true
  | .submission => false

structure EndpointConfig where
  priority : ℕ
  role : EndpointRole
  deriving DecidableEq, Repr

/-- An endpoint, without the totals that only its statistics report. -/
structure EndpointState where
  config : EndpointConfig
  health : EndpointHealth
  consecutiveFailures : ℕ
  consecutiveSuccesses : ℕ
  avgLatencyUs : ℕ
  latencySamples : ℕ
  deriving DecidableEq, Repr

namespace EndpointState

def new (config : EndpointConfig) : EndpointState := ⟨config, .healthy, 0, 0, 0, 0⟩

/-- Whether the endpoint serves reads, or else submissions. -/
def serves (s : EndpointState) (readOnly : Bool) : Bool :=
  if readOnly then s.config.role.canFetch else s.config.role.canSubmit

def isAvailable (s : EndpointState) : Bool :=
  match s.health with
  | .healthy => true
  | .degraded => true
  | .unhealthy => false

def maybeUpgradeHealth (s : EndpointState) : EndpointState :=
  match s.health with
  | .unhealthy => if 3 ≤ s.consecutiveSuccesses then { s with health := .degraded } else s
  | .degraded => if 5 ≤ s.consecutiveSuccesses then { s with health := .healthy } else s
  | .healthy => s

def maybeDowngradeHealth (s : EndpointState) : EndpointState :=
  match s.health with
  | .healthy => if 3 ≤ s.consecutiveFailures then { s with health := .degraded } else s
  | .degraded => if 5 ≤ s.consecutiveFailures then { s with health := .unhealthy } else s
  | .unhealthy => s

/-- The moving average of the latency; the first sample is taken as it is. -/
def updateLatency (average : ℕ → ℕ → ℕ) (s : EndpointState) (latency : ℕ) : EndpointState :=
  { s with
    avgLatencyUs := if s.latencySamples = 0 then latency else average s.avgLatencyUs latency
    latencySamples := (s.latencySamples + 1) % 2 ^ 64 }

def recordSuccess (average : ℕ → ℕ → ℕ) (s : EndpointState) (latency : ℕ) : EndpointState :=
  let counted := { s with
    consecutiveSuccesses := (s.consecutiveSuccesses + 1) % 2 ^ 64
    consecutiveFailures := 0 }
  (counted.updateLatency average latency).maybeUpgradeHealth

def recordFailure (s : EndpointState) : EndpointState :=
  let counted := { s with
    consecutiveFailures := (s.consecutiveFailures + 1) % 2 ^ 64
    consecutiveSuccesses := 0 }
  counted.maybeDowngradeHealth

end EndpointState

inductive LoadBalanceStrategy
  | roundRobin
  | weightedRoundRobin
  | leastLatency
  | priority
  deriving DecidableEq, Repr

/-- A pool of `n` endpoints. -/
structure RpcPool (n : ℕ) where
  endpoints : Fin n → EndpointState
  strategy : LoadBalanceStrategy
  roundRobinIdx : ℕ

/-- A request, with the outcome it would have at each endpoint: the latency of an answer, or
a failure. An error in the answer is a failure. -/
structure Request (n : ℕ) where
  readOnly : Bool
  outcome : Fin n → Option ℕ

inductive RpcError
  | noHealthyEndpoints
  | requestFailed
  deriving DecidableEq, Repr

namespace RpcPool

variable {n : ℕ}

def new (configs : List EndpointConfig) (strategy : LoadBalanceStrategy) :
    Option (RpcPool configs.length) :=
  if configs = [] then none
  else some ⟨fun i => .new (configs.get i), strategy, 0⟩

/-- The endpoints that serve the request and are not unhealthy. -/
def available (p : RpcPool n) (readOnly : Bool) : List (Fin n) :=
  (List.finRange n).filter fun i => (p.endpoints i).serves readOnly && (p.endpoints i).isAvailable

/-- The available endpoints in the order of the strategy, and the pool with its index. -/
def selectEndpoints (p : RpcPool n) (readOnly : Bool) : List (Fin n) × RpcPool n :=
  let available := p.available readOnly
  if available = [] then ([], p)
  else match p.strategy with
    | .roundRobin =>
      (available.rotate (p.roundRobinIdx % available.length),
        { p with roundRobinIdx := (p.roundRobinIdx + 1) % 2 ^ 64 })
    | .leastLatency =>
      (available.mergeSort fun i j => (p.endpoints i).avgLatencyUs ≤ (p.endpoints j).avgLatencyUs, p)
    | .priority | .weightedRoundRobin =>
      (available.mergeSort fun i j =>
        (p.endpoints i).config.priority ≤ (p.endpoints j).config.priority, p)

def record (p : RpcPool n) (i : Fin n) (s : EndpointState) : RpcPool n :=
  { p with endpoints := Function.update p.endpoints i s }

/-- The loop over the selected endpoints. -/
def tryEndpoints (average : ℕ → ℕ → ℕ) (r : Request n) :
    List (Fin n) → RpcPool n → Except RpcError (Fin n) × RpcPool n
  | [], p => (.error .requestFailed, p)
  | i :: rest, p =>
    match r.outcome i with
    | some latency => (.ok i, p.record i ((p.endpoints i).recordSuccess average latency))
    | none => tryEndpoints average r rest (p.record i (p.endpoints i).recordFailure)

def executeWithFailover (average : ℕ → ℕ → ℕ) (p : RpcPool n) (r : Request n) :
    Except RpcError (Fin n) × RpcPool n :=
  let (selected, p) := p.selectEndpoints r.readOnly
  if selected = [] then (.error .noHealthyEndpoints, p) else tryEndpoints average r selected p

/-! ## What a request does to an endpoint -/

/-- The endpoints that are asked: up to the first that answers. -/
def asked (r : Request n) : List (Fin n) → List (Fin n)
  | [] => []
  | i :: rest => if (r.outcome i).isSome then [i] else i :: asked r rest

/-- The state of an endpoint after the outcome it has. -/
def recorded (average : ℕ → ℕ → ℕ) (p : RpcPool n) (r : Request n) (i : Fin n) : EndpointState :=
  match r.outcome i with
  | some latency => (p.endpoints i).recordSuccess average latency
  | none => (p.endpoints i).recordFailure

theorem asked_subset (r : Request n) (l : List (Fin n)) : asked r l ⊆ l := by
  induction l with
  | nil => simp [asked]
  | cons i rest ih =>
    unfold asked
    split_ifs
    · simp
    · exact List.cons_subset_cons i ih

@[simp] theorem record_endpoints (p : RpcPool n) (i j : Fin n) (s : EndpointState) :
    (p.record i s).endpoints j = if j = i then s else p.endpoints j := by
  unfold record
  by_cases h : j = i
  · subst h
    simp
  · simp [h]

/-- The loop records one outcome at each endpoint that is asked. -/
theorem tryEndpoints_endpoints (average : ℕ → ℕ → ℕ) (r : Request n) {l : List (Fin n)}
    (hnodup : l.Nodup) (p : RpcPool n) (i : Fin n) :
    (tryEndpoints average r l p).2.endpoints i =
      if i ∈ asked r l then recorded average p r i else p.endpoints i := by
  induction l generalizing p with
  | nil => simp [tryEndpoints, asked]
  | cons j rest ih =>
    obtain ⟨hj, hrest⟩ := List.nodup_cons.mp hnodup
    unfold tryEndpoints asked
    cases hout : r.outcome j with
    | some latency =>
      simp only [Option.isSome_some, if_true, List.mem_singleton, record_endpoints]
      split_ifs with hij
      · rw [recorded, hij, hout]
      · rfl
    | none =>
      simp only [Option.isSome_none, Bool.false_eq_true, if_false, List.mem_cons]
      rw [ih hrest]
      by_cases hij : i = j
      · subst hij
        have hnot : i ∉ asked r rest := fun hmem => hj (asked_subset r rest hmem)
        simp [hnot, recorded, hout]
      · simp [hij, recorded]

theorem mem_available (p : RpcPool n) (readOnly : Bool) (i : Fin n) :
    i ∈ p.available readOnly ↔
      (p.endpoints i).serves readOnly = true ∧ (p.endpoints i).isAvailable = true := by
  simp [available]

theorem available_nodup (p : RpcPool n) (readOnly : Bool) : (p.available readOnly).Nodup :=
  (List.nodup_finRange n).filter _

/-- Every strategy selects all available endpoints, in some order. -/
theorem selectEndpoints_perm (p : RpcPool n) (readOnly : Bool) :
    (p.selectEndpoints readOnly).1.Perm (p.available readOnly) ∧
      (p.selectEndpoints readOnly).2.endpoints = p.endpoints := by
  unfold selectEndpoints
  simp only
  split_ifs with hnone
  · rw [hnone]
    exact ⟨List.Perm.refl _, rfl⟩
  · cases p.strategy with
    | roundRobin => exact ⟨List.rotate_perm _ _, rfl⟩
    | leastLatency => exact ⟨List.mergeSort_perm _ _, rfl⟩
    | priority => exact ⟨List.mergeSort_perm _ _, rfl⟩
    | weightedRoundRobin => exact ⟨List.mergeSort_perm _ _, rfl⟩

theorem selectEndpoints_ne_nil {p : RpcPool n} {readOnly : Bool} :
    (p.selectEndpoints readOnly).1 ≠ [] ↔
      ∃ i, (p.endpoints i).serves readOnly = true ∧ (p.endpoints i).isAvailable = true := by
  have hperm := (p.selectEndpoints_perm readOnly).1
  constructor
  · intro hne
    obtain ⟨i, hi⟩ := List.exists_mem_of_ne_nil _ hne
    exact ⟨i, (mem_available p readOnly i).mp (hperm.mem_iff.mp hi)⟩
  · rintro ⟨i, hi⟩
    exact List.ne_nil_of_mem (hperm.mem_iff.mpr ((mem_available p readOnly i).mpr hi))

/-- The endpoints that a request asks. -/
def askedBy (p : RpcPool n) (r : Request n) : List (Fin n) :=
  asked r (p.selectEndpoints r.readOnly).1

theorem executeWithFailover_endpoints (average : ℕ → ℕ → ℕ) (p : RpcPool n) (r : Request n)
    (i : Fin n) :
    (p.executeWithFailover average r).2.endpoints i =
      if i ∈ p.askedBy r then recorded average p r i else p.endpoints i := by
  obtain ⟨hperm, hsame⟩ := p.selectEndpoints_perm r.readOnly
  have hnodup := hperm.nodup_iff.mpr (available_nodup p r.readOnly)
  unfold executeWithFailover askedBy
  simp only
  split_ifs with hnone hmem hmem
  · rw [hnone] at hmem
    simp [asked] at hmem
  · rw [hsame]
  · rw [tryEndpoints_endpoints average r hnodup, if_pos hmem]
    simp only [recorded, hsame]
  · rw [tryEndpoints_endpoints average r hnodup, if_neg hmem, hsame]

end RpcPool

/-! ## Health -/

theorem EndpointState.recordSuccess_isAvailable {average : ℕ → ℕ → ℕ} {s : EndpointState}
    (h : s.isAvailable = true) (latency : ℕ) :
    (s.recordSuccess average latency).isAvailable = true := by
  obtain ⟨config, health, failures, successes, avg, samples⟩ := s
  cases health with
  | healthy => rfl
  | degraded =>
    simp only [recordSuccess, updateLatency, maybeUpgradeHealth]
    split_ifs <;> rfl
  | unhealthy => exact absurd h (by simp [isAvailable])

theorem EndpointState.recordFailure_isAvailable {s : EndpointState} (h : s.isAvailable = true) :
    s.recordFailure.isAvailable = true ↔
      ¬ (s.health = .degraded ∧ 5 ≤ (s.consecutiveFailures + 1) % 2 ^ 64) := by
  obtain ⟨config, health, failures, successes, avg, samples⟩ := s
  cases health with
  | healthy =>
    simp only [recordFailure, maybeDowngradeHealth]
    split_ifs <;> simp [isAvailable]
  | degraded =>
    simp only [recordFailure, maybeDowngradeHealth]
    split_ifs with hfail
    · simp [isAvailable]
      omega
    · simp [isAvailable]
      omega
  | unhealthy => exact absurd h (by simp [isAvailable])

theorem EndpointState.recordSuccess_config (average : ℕ → ℕ → ℕ) (s : EndpointState)
    (latency : ℕ) : (s.recordSuccess average latency).config = s.config := by
  unfold recordSuccess updateLatency maybeUpgradeHealth
  cases s.health <;> simp only <;> split_ifs <;> rfl

theorem EndpointState.recordFailure_config (s : EndpointState) :
    s.recordFailure.config = s.config := by
  unfold recordFailure maybeDowngradeHealth
  cases s.health <;> simp only <;> split_ifs <;> rfl

namespace RpcPool

variable {n : ℕ}

/-- The request asks a degraded endpoint that has failed four times in a row, and it fails. -/
def KnocksOut (p : RpcPool n) (r : Request n) (i : Fin n) : Prop :=
  i ∈ p.askedBy r ∧ r.outcome i = none ∧ (p.endpoints i).health = .degraded ∧
    5 ≤ ((p.endpoints i).consecutiveFailures + 1) % 2 ^ 64

/-- One request, taken on its own. -/
def Step (average : ℕ → ℕ → ℕ) (p : RpcPool n) (r : Request n) (p' : RpcPool n) : Prop :=
  (p.executeWithFailover average r).2 = p'

theorem Step.config_eq {average : ℕ → ℕ → ℕ} {p p' : RpcPool n} {r : Request n}
    (h : Step average p r p') (i : Fin n) :
    (p'.endpoints i).config = (p.endpoints i).config := by
  rw [← h, executeWithFailover_endpoints]
  split_ifs with hasked
  · unfold recorded
    cases r.outcome i with
    | some latency => exact EndpointState.recordSuccess_config average _ latency
    | none => exact EndpointState.recordFailure_config _
  · rfl

theorem Step.serves_eq {average : ℕ → ℕ → ℕ} {p p' : RpcPool n} {r : Request n}
    (h : Step average p r p') (i : Fin n) (readOnly : Bool) :
    (p'.endpoints i).serves readOnly = (p.endpoints i).serves readOnly := by
  unfold EndpointState.serves
  rw [h.config_eq i]

/-- The step lemma: a request takes out the endpoints that it knocks out, and brings back
none. -/
theorem Step.isAvailable_iff {average : ℕ → ℕ → ℕ} {p p' : RpcPool n} {r : Request n}
    (h : Step average p r p') (i : Fin n) :
    (p'.endpoints i).isAvailable = true ↔
      (p.endpoints i).isAvailable = true ∧ ¬ p.KnocksOut r i := by
  have hselected : i ∈ p.askedBy r → (p.endpoints i).isAvailable = true := by
    intro hasked
    have hmem := (p.selectEndpoints_perm r.readOnly).1.mem_iff.mp (asked_subset _ _ hasked)
    exact ((mem_available p r.readOnly i).mp hmem).2
  rw [← h, executeWithFailover_endpoints]
  unfold KnocksOut
  by_cases hasked : i ∈ p.askedBy r
  · have hav := hselected hasked
    rw [if_pos hasked, recorded]
    cases hout : r.outcome i with
    | some latency => simp [EndpointState.recordSuccess_isAvailable hav, hav]
    | none => simp only [EndpointState.recordFailure_isAvailable hav, hav, hasked, true_and]
  · simp [hasked]

/-- The run lemma: what is available was available all the time. -/
theorem isAvailable_of_run {average : ℕ → ℕ → ℕ} {p p' : RpcPool n} {requests : List (Request n)}
    (h : Run (Step average) p requests p') {i : Fin n}
    (hi : (p'.endpoints i).isAvailable = true) : (p.endpoints i).isAvailable = true := by
  induction h with
  | nil p => exact hi
  | cons hstep _ ih => exact ((hstep.isAvailable_iff i).mp (ih hi)).1

theorem serves_of_run {average : ℕ → ℕ → ℕ} {p p' : RpcPool n} {requests : List (Request n)}
    (h : Run (Step average) p requests p') (i : Fin n) (readOnly : Bool) :
    (p'.endpoints i).serves readOnly = (p.endpoints i).serves readOnly := by
  induction h with
  | nil p => rfl
  | cons hstep _ ih => rw [ih, hstep.serves_eq]

/-- Some requests lead to a state in which every role that is served has an endpoint to
select. -/
def NotLockedOut (average : ℕ → ℕ → ℕ) (p : RpcPool n) : Prop :=
  ∃ requests p', Run (Step average) p requests p' ∧
    ∀ readOnly, (∃ i, (p.endpoints i).serves readOnly = true) →
      (p'.selectEndpoints readOnly).1 ≠ []

/-- Every endpoint is available after some requests. -/
def NoneStuck (average : ℕ → ℕ → ℕ) (p : RpcPool n) : Prop :=
  ∀ i, ∃ requests p', Run (Step average) p requests p' ∧ (p'.endpoints i).isAvailable = true

/-- The role has an available endpoint that the request does not knock out. -/
def Spares (p : RpcPool n) (r : Request n) (readOnly : Bool) : Prop :=
  ∃ i, (p.endpoints i).serves readOnly = true ∧ (p.endpoints i).isAvailable = true ∧
    ¬ p.KnocksOut r i

/-- Nothing comes back, so a pool is not locked out if it is open now. -/
theorem notLockedOut_iff {average : ℕ → ℕ → ℕ} {p : RpcPool n} :
    p.NotLockedOut average ↔
      ∀ readOnly, (∃ i, (p.endpoints i).serves readOnly = true) →
        ∃ i, (p.endpoints i).serves readOnly = true ∧ (p.endpoints i).isAvailable = true := by
  constructor
  · rintro ⟨requests, p', hrun, hopen⟩ readOnly hserved
    obtain ⟨i, hserves, hav⟩ := selectEndpoints_ne_nil.mp (hopen readOnly hserved)
    exact ⟨i, (serves_of_run hrun i readOnly).symm.trans hserves, isAvailable_of_run hrun hav⟩
  · intro hopen
    exact ⟨[], p, .nil p, fun readOnly hserved => selectEndpoints_ne_nil.mpr (hopen readOnly hserved)⟩

theorem noneStuck_iff {average : ℕ → ℕ → ℕ} {p : RpcPool n} :
    p.NoneStuck average ↔ ∀ i, (p.endpoints i).isAvailable = true := by
  constructor
  · intro h i
    obtain ⟨requests, p', hrun, hav⟩ := h i
    exact isAvailable_of_run hrun hav
  · intro h i
    exact ⟨[], p, .nil p, h i⟩

theorem Step.notLockedOut_iff {average : ℕ → ℕ → ℕ} {p p' : RpcPool n} {r : Request n}
    (h : Step average p r p') :
    p'.NotLockedOut average ↔
      ∀ readOnly, (∃ i, (p.endpoints i).serves readOnly = true) → p.Spares r readOnly := by
  rw [RpcPool.notLockedOut_iff]
  simp only [h.serves_eq, h.isAvailable_iff, Spares]

theorem Step.noneStuck_iff {average : ℕ → ℕ → ℕ} {p p' : RpcPool n} {r : Request n}
    (h : Step average p r p') (hp : p.NoneStuck average) :
    p'.NoneStuck average ↔ ∀ i, ¬ p.KnocksOut r i := by
  rw [RpcPool.noneStuck_iff] at hp ⊢
  simp only [h.isAvailable_iff, hp, true_and]

theorem new_isAvailable {configs : List EndpointConfig} {strategy : LoadBalanceStrategy}
    {p : RpcPool configs.length} (h : new configs strategy = some p) (i : Fin configs.length) :
    (p.endpoints i).isAvailable = true := by
  unfold new at h
  split_ifs at h
  rw [← Option.some.inj h]
  rfl

/-- A pool without stuck endpoints is open. -/
theorem NoneStuck.notLockedOut {average : ℕ → ℕ → ℕ} {p : RpcPool n} (h : p.NoneStuck average) :
    p.NotLockedOut average := by
  rw [notLockedOut_iff]
  rintro readOnly ⟨i, hi⟩
  exact ⟨i, hi, noneStuck_iff.mp h i⟩

/-- A new pool stays open for the roles it serves along exactly those sequences of requests
that each spare an available endpoint of every role. Besides, none of its endpoints gets
stuck along exactly those that knock out none. -/
theorem pool_stays_open_iff (average : ℕ → ℕ → ℕ) {configs : List EndpointConfig}
    {strategy : LoadBalanceStrategy} {p₀ p : RpcPool configs.length}
    (hnew : new configs strategy = some p₀) (requests : List (Request configs.length)) :
    (p₀.NotLockedOut average ∧ p₀.NoneStuck average) ∧
    (Run (fun p r p' => Step average p r p' ∧ p'.NotLockedOut average) p₀ requests p ↔
      Run (Guarded (Step average) fun p r => ∀ readOnly,
        (∃ i, (p.endpoints i).serves readOnly = true) → p.Spares r readOnly) p₀ requests p) ∧
    (Run (fun p r p' => Step average p r p' ∧ p'.NotLockedOut average ∧ p'.NoneStuck average)
        p₀ requests p ↔
      Run (Guarded (Step average) fun p r => ∀ i, ¬ p.KnocksOut r i) p₀ requests p) := by
  have hstuck : p₀.NoneStuck average := noneStuck_iff.mpr (new_isAvailable hnew)
  have hopen := hstuck.notLockedOut
  refine ⟨⟨hopen, hstuck⟩, ?_, ?_⟩
  · exact Run.kept_iff (fun _ _ _ _ hstep => hstep.notLockedOut_iff) hopen
  · refine Run.kept_iff
      (I := fun p : RpcPool configs.length => p.NotLockedOut average ∧ p.NoneStuck average)
      (fun p r p' hp hstep => ?_) ⟨hopen, hstuck⟩
    rw [← hstep.noneStuck_iff hp.2]
    constructor
    · intro h
      exact h.2
    · intro h
      exact ⟨h.notLockedOut, h⟩

/-! ## A request that nobody answers -/

/-- The pool after a sequence of requests. -/
def afterAll (average : ℕ → ℕ → ℕ) (p : RpcPool n) (requests : List (Request n)) : RpcPool n :=
  requests.foldl (fun p r => (p.executeWithFailover average r).2) p

theorem run_afterAll (average : ℕ → ℕ → ℕ) (p : RpcPool n) (requests : List (Request n)) :
    Run (Step average) p requests (p.afterAll average requests) := by
  induction requests generalizing p with
  | nil => exact Run.nil p
  | cons r requests ih => exact Run.cons rfl (ih _)

/-- Two endpoints for everything. -/
def sampleConfigs : List EndpointConfig := [⟨0, .both⟩, ⟨1, .both⟩]

/-- Four fifths of the old average and one of the sample. -/
def sampleAverage (current latency : ℕ) : ℕ := (4 * current + latency) / 5

/-- A read that is an error at every endpoint. -/
def badRequest : Request sampleConfigs.length := ⟨true, fun _ => none⟩

/-- The same bad request, five times, takes out every endpoint, and no request brings one
back. -/
theorem bad_request_locks_out :
    ∃ p₀ p, new sampleConfigs .roundRobin = some p₀ ∧
      Run (Step sampleAverage) p₀ (List.replicate 5 badRequest) p ∧
      (∀ i, (p.endpoints i).health = .unhealthy) ∧ ¬ p.NotLockedOut sampleAverage := by
  have hhealth : (new sampleConfigs .roundRobin).map (fun p₀ => decide (∀ i,
      ((p₀.afterAll sampleAverage (List.replicate 5 badRequest)).endpoints i).health =
        .unhealthy)) = some true := by
    decide +kernel
  obtain ⟨p₀, hnew, hdecide⟩ := Option.map_eq_some_iff.mp hhealth
  have hall := of_decide_eq_true hdecide
  refine ⟨p₀, _, hnew, run_afterAll sampleAverage p₀ _, hall, fun hopen => ?_⟩
  have hserved : ∃ i, ((p₀.afterAll sampleAverage (List.replicate 5 badRequest)).endpoints i).serves
      true = true := by
    refine ⟨⟨0, by decide⟩, ?_⟩
    rw [serves_of_run (run_afterAll sampleAverage p₀ _), ← Option.some.inj hnew]
    rfl
  obtain ⟨i, -, hav⟩ := notLockedOut_iff.mp hopen true hserved
  unfold EndpointState.isAvailable at hav
  rw [hall i] at hav
  exact absurd hav (by simp)

/-- One bad request leaves the pool open. -/
theorem pool_survives_bad_request :
    ∃ p₀ p, new sampleConfigs .roundRobin = some p₀ ∧
      Run (fun p r p' => Step sampleAverage p r p' ∧ p'.NotLockedOut sampleAverage ∧
        p'.NoneStuck sampleAverage) p₀ [badRequest] p := by
  obtain ⟨p₀, hnew⟩ : ∃ p₀, new sampleConfigs .roundRobin = some p₀ := ⟨_, rfl⟩
  refine ⟨p₀, (p₀.executeWithFailover sampleAverage badRequest).2, hnew,
    (pool_stays_open_iff sampleAverage hnew [badRequest]).2.2.mpr (.cons ⟨fun i hout => ?_, rfl⟩
      (.nil _))⟩
  obtain ⟨-, -, hdegraded, -⟩ := hout
  rw [← Option.some.inj hnew] at hdegraded
  exact absurd hdegraded (by simp [EndpointState.new])

end RpcPool

end Antegen.Client
