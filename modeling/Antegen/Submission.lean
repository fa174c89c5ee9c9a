import Antegen.Processor

/-!
# Submitting a batch

A worker signs the batch with a recent blockhash, sends the transaction and asks for its
status until there is one or the time is up. Then it signs the batch again, with another
blockhash. The network may execute any transaction it was sent, also one that the worker has
given up. The worker asks only about the transaction it signed last, so it does not learn
that an earlier one succeeded.

Sleeping and log output are left out. The time is up whenever the network takes too long, so
a timeout may come at any moment of a confirmation. The statuses that the network reports
may be late, and the requests may fail; a confirmed status is true.
-/
namespace Antegen.Client

open Transition Pool

/-- A JSON value. Of a number that is not an integer nothing is read. -/
inductive JsonValue
  | null
  | bool (value : Bool)
  | integer (value : ℤ)
  | float
  | string (value : String)
  | array (values : List JsonValue)
  | object (fields : List (String × JsonValue))

namespace JsonValue

def get (key : String) : JsonValue → Option JsonValue
  | object fields => (fields.find? fun field => field.1 = key).map Prod.snd
  | _ => none

def getIndex (i : ℕ) : JsonValue → Option JsonValue
  | array values => values[i]?
  | _ => none

def asU64 : JsonValue → Option ℕ
  | integer value => if 0 ≤ value ∧ value < 2 ^ 64 then some value.toNat else none
  | _ => none

end JsonValue

structure SignatureStatus where
  err : Option JsonValue
  confirmationStatus : Option String

namespace SignatureStatus

def confirmed (status : SignatureStatus) : Bool :=
  (status.confirmationStatus.map fun level => level == "confirmed" || level == "finalized").getD
    false

end SignatureStatus

/-- The answer to a request for one status, or the error of the pool. -/
abbrev StatusAnswer := Except String (Option (List (Option SignatureStatus)))

/-- The code of `TransactionError::InstructionError(0, InstructionError::Custom(code))`, which
stands for every error. -/
def customCode (err : JsonValue) : ℕ :=
  ((((err.get "InstructionError").bind (JsonValue.getIndex 1)).bind
    (JsonValue.get "Custom")).bind JsonValue.asU64).getD 0 % 2 ^ 32

/-- Nothing yet, or how the transaction ended. -/
def getSignatureStatus (answer : StatusAnswer) : Except String (Option (Except ℕ Unit)) := do
  let result ← answer
  match (result.getD []).head? with
  | some (some status) =>
    if status.confirmed then
      match status.err with
      | some err => pure (some (.error (customCode err)))
      | none => pure (some (.ok ()))
    else pure none
  | _ => pure none

def maxAttempts : ℕ := 5

/-- The debug text of the error with this code. -/
def errorText (code : ℕ) : String := "InstructionError(0, Custom(" ++ toString code ++ "))"

def isTriggerNotReadyError (error : String) : Bool :=
  textContains error "Custom(6004)" || textContains error "6004"

def isThreadPausedError (error : String) : Bool :=
  textContains error "Custom(6006)" || textContains error "6006"

/-- Where `submit_and_confirm_batch` is. -/
inductive SubmissionPhase (Signature : Type)
  | attempting
  | fetchingBlockhash
  | tpuSend (signature : Signature)
  | tpuPoll (signature : Signature)
  | rpcSend (signature : Signature)
  | rpcPoll (signature : Signature)
  | returned (result : Except (String × ℕ) Signature)

/-- The worker, what it told the load balancer from the last result back, the transactions it
sent, and the error of each transaction that landed, if it has one. -/
structure Submission (Signature : Type) where
  attempt : ℕ
  lastError : String
  cancelled : Bool
  phase : SubmissionPhase Signature
  told : List Bool
  submitted : List Signature
  landed : Signature → Option (Option JsonValue)

namespace Submission

variable {Signature Blockhash : Type}

def start : Submission Signature := ⟨0, "", false, .attempting, [], [], fun _ => none⟩

def record (s : Submission Signature) (success : Bool) : Submission Signature :=
  { s with told := success :: s.told }

def returnErr (s : Submission Signature) (error : String) : Submission Signature :=
  { s with phase := .returned (.error (error, s.attempt)) }

def returnOk (s : Submission Signature) (signature : Signature) : Submission Signature :=
  { s.record true with phase := .returned (.ok signature) }

/-- The head of the loop. -/
def nextAttempt (s : Submission Signature) : Submission Signature :=
  if s.attempt < maxAttempts then
    let s := { s with attempt := s.attempt + 1 }
    if s.cancelled then s.returnErr "Cancelled during execution"
    else { s with phase := .fetchingBlockhash }
  else s.returnErr s.lastError

/-- With a blockhash the transaction has a signature, before it is sent. -/
def withBlockhash (s : Submission Signature) (tpu : Bool) :
    Except String Signature → Submission Signature
  | .error e =>
    { s with lastError := "Failed to get blockhash: " ++ e, phase := .attempting }
  | .ok signature => { s with phase := if tpu then .tpuSend signature else .rpcSend signature }

/-- A send that fails may have reached the network all the same. The errors of the TPU are
ignored. -/
def tpuSent (s : Submission Signature) (signature : Signature) : Submission Signature :=
  { s with submitted := signature :: s.submitted, phase := .tpuPoll signature }

def rpcSent (s : Submission Signature) (signature : Signature) (error : Option String) :
    Submission Signature :=
  let s := { s with submitted := signature :: s.submitted }
  match error with
  | none => { s with phase := .rpcPoll signature }
  | some e =>
    { s.record false with lastError := "Transaction send failed: " ++ e, phase := .attempting }

/-- A status while the transaction is being sent to the TPU. -/
def tpuStatus (s : Submission Signature) (signature : Signature) :
    Except String (Option (Except ℕ Unit)) → Submission Signature
  | .ok (some (.ok ())) => s.returnOk signature
  | .ok (some (.error code)) =>
    if isTriggerNotReadyError (errorText code) then { s with phase := .rpcSend signature }
    else if isThreadPausedError (errorText code) then s.returnErr "Thread is paused"
    else (s.record false).returnErr ("Transaction failed on-chain: " ++ errorText code)
  | .ok none => s
  | .error _ => s

/-- What follows on an error of `wait_for_confirmation`. -/
def confirmationFailed (s : Submission Signature) (e : String) : Submission Signature :=
  let s := { s with lastError := "Confirmation failed: " ++ e }
  if isTriggerNotReadyError e then { s with phase := .attempting }
  else if isThreadPausedError e then s.returnErr "Thread is paused"
  else { s.record false with phase := .attempting }

/-- A status in `wait_for_confirmation`. -/
def rpcStatus (s : Submission Signature) (signature : Signature) :
    Except String (Option (Except ℕ Unit)) → Submission Signature
  | .ok (some (.ok ())) => s.returnOk signature
  | .ok (some (.error code)) => s.confirmationFailed ("Transaction failed: " ++ errorText code)
  | .ok none => s
  | .error _ => s

/-- The network executes a transaction. -/
def land [DecidableEq Signature] (s : Submission Signature) (signature : Signature)
    (err : Option JsonValue) : Submission Signature :=
  { s with landed := Function.update s.landed signature (some err) }

/-- A confirmed status says how the transaction landed. -/
def Truthful (s : Submission Signature) (signature : Signature) (answer : StatusAnswer) : Prop :=
  ∀ statuses status, answer = .ok (some statuses) → statuses.head? = some (some status) →
    status.confirmed = true → s.landed signature = some status.err

end Submission

inductive SubmissionEvent (Blockhash Signature : Type)
  | cancel
  | land (signature : Signature) (err : Option JsonValue)
  | attempt
  | blockhash (answer : Except String Blockhash)
  | tpuSend
  | rpcSend (error : Option String)
  | status (answer : StatusAnswer)
  | timeout

namespace Submission

variable {Signature Blockhash : Type}

/-- The steps of the worker and of the network, up to the return. -/
inductive Step [DecidableEq Signature] (sign : Blockhash → Signature) (tpu : Bool) :
    Submission Signature → SubmissionEvent Blockhash Signature → Submission Signature → Prop
  | cancel {s} : (∀ result, s.phase ≠ .returned result) →
      Step sign tpu s .cancel { s with cancelled := true }
  | land {s signature err} : (∀ result, s.phase ≠ .returned result) → signature ∈ s.submitted →
      s.landed signature = none →
      Step sign tpu s (.land signature err) (s.land signature err)
  | attempt {s} : s.phase = .attempting → Step sign tpu s .attempt s.nextAttempt
  | blockhash {s answer} : s.phase = .fetchingBlockhash →
      Step sign tpu s (.blockhash answer) (s.withBlockhash tpu (answer.map sign))
  | tpuSend {s signature} : s.phase = .tpuSend signature ∨ s.phase = .tpuPoll signature →
      Step sign tpu s .tpuSend (s.tpuSent signature)
  | tpuStatus {s signature answer} : s.phase = .tpuPoll signature → s.Truthful signature answer →
      Step sign tpu s (.status answer) (s.tpuStatus signature (getSignatureStatus answer))
  | tpuTimeout {s signature} : s.phase = .tpuPoll signature →
      Step sign tpu s .timeout { s with phase := .rpcSend signature }
  | rpcSend {s signature error} : s.phase = .rpcSend signature →
      Step sign tpu s (.rpcSend error) (s.rpcSent signature error)
  | rpcStatus {s signature answer} : s.phase = .rpcPoll signature → s.Truthful signature answer →
      Step sign tpu s (.status answer) (s.rpcStatus signature (getSignatureStatus answer))
  | rpcTimeout {s signature} : s.phase = .rpcPoll signature →
      Step sign tpu s .timeout (s.confirmationFailed "Confirmation timeout after 30s")

def Succeeded (s : Submission Signature) (signature : Signature) : Prop :=
  s.landed signature = some none

/-- Submission results tell the truth, at the return. -/
structure TellsTruth (s : Submission Signature) : Prop where
  landed : ∀ result, s.phase = .returned result →
    (∃ signature ∈ s.submitted, s.Succeeded signature) →
      (∃ signature, result = .ok signature) ∧ s.told.head? = some true
  ok : ∀ signature, s.phase = .returned (.ok signature) →
    ∃ signature ∈ s.submitted, s.Succeeded signature

/-- The worker is concerned with this transaction, or it has reported a success. -/
def Watches (s : Submission Signature) (signature : Signature) : Prop :=
  match s.phase with
  | .tpuSend current => current = signature
  | .tpuPoll current => current = signature
  | .rpcSend current => current = signature
  | .rpcPoll current => current = signature
  | .returned (.ok _) => True
  | .returned (.error _) => False
  | .attempting => False
  | .fetchingBlockhash => False

/-- No success is out of sight. -/
def InSight (s : Submission Signature) : Prop :=
  ∀ signature, s.Succeeded signature → s.Watches signature

/-- A transaction succeeds only while the worker is concerned with it. The worker does not
give up a transaction that has succeeded, on a timeout or on an error of the RPC send. -/
def KeepsSight (s : Submission Signature) : SubmissionEvent Blockhash Signature → Prop
  | .land signature none => s.Watches signature
  | .rpcSend (some _) => ∀ signature, s.phase = .rpcSend signature → ¬ s.Succeeded signature
  | .timeout => ∀ signature, s.phase = .rpcPoll signature → ¬ s.Succeeded signature
  | _ => True

/-! ## What a step changes -/

/-- A status that says how a transaction ended is a confirmed one. -/
theorem getSignatureStatus_some {answer : StatusAnswer} {outcome : Except ℕ Unit}
    (h : getSignatureStatus answer = .ok (some outcome)) :
    ∃ statuses status, answer = .ok (some statuses) ∧ statuses.head? = some (some status) ∧
      status.confirmed = true ∧ (status.err = none ↔ outcome = .ok ()) := by
  cases answer with
  | error e => exact absurd h (by simp [getSignatureStatus, bind, Except.bind])
  | ok result =>
    cases result with
    | none => exact absurd h (by simp [getSignatureStatus, bind, Except.bind, pure, Except.pure])
    | some statuses =>
      simp only [getSignatureStatus, bind, Except.bind, pure, Except.pure, Option.getD_some] at h
      refine ⟨statuses, ?_⟩
      split at h
      · rename_i status hhead
        refine ⟨status, rfl, hhead, ?_⟩
        split_ifs at h with hconfirmed
        · refine ⟨hconfirmed, ?_⟩
          split at h
          · rename_i err herr
            simp only [Except.ok.injEq, Option.some.injEq] at h
            simp [herr, ← h]
          · rename_i herr
            simp only [Except.ok.injEq, Option.some.injEq] at h
            simp [herr, ← h]
        · exact absurd h (by simp)
      · exact absurd h (by simp)

theorem Truthful.succeeded {s : Submission Signature} {signature : Signature}
    {answer : StatusAnswer} (h : s.Truthful signature answer)
    (hok : getSignatureStatus answer = .ok (some (.ok ()))) : s.Succeeded signature := by
  obtain ⟨statuses, status, hanswer, hhead, hconfirmed, herr⟩ := getSignatureStatus_some hok
  have hlanded := h statuses status hanswer hhead hconfirmed
  rw [herr.mpr rfl] at hlanded
  exact hlanded

theorem Truthful.not_succeeded {s : Submission Signature} {signature : Signature}
    {answer : StatusAnswer} (h : s.Truthful signature answer) {code : ℕ}
    (hfailed : getSignatureStatus answer = .ok (some (.error code))) :
    ¬ s.Succeeded signature := by
  obtain ⟨statuses, status, hanswer, hhead, hconfirmed, herr⟩ := getSignatureStatus_some hfailed
  have hlanded := h statuses status hanswer hhead hconfirmed
  intro hsucceeded
  have hnone : status.err = none := Option.some.inj (hlanded.symm.trans hsucceeded)
  exact absurd (herr.mp hnone) (by simp)

/-- The network as the worker leaves it: nothing lands, and what was sent stays sent. -/
structure SameNetwork (s t : Submission Signature) : Prop where
  landed : t.landed = s.landed
  submitted : s.submitted ⊆ t.submitted

theorem nextAttempt_sameNetwork (s : Submission Signature) : s.SameNetwork s.nextAttempt := by
  unfold nextAttempt
  simp only
  split_ifs
  · exact ⟨rfl, List.Subset.refl _⟩
  · exact ⟨rfl, List.Subset.refl _⟩
  · exact ⟨rfl, List.Subset.refl _⟩

theorem confirmationFailed_sameNetwork (s : Submission Signature) (e : String) :
    s.SameNetwork (s.confirmationFailed e) := by
  unfold confirmationFailed
  simp only
  split_ifs
  · exact ⟨rfl, List.Subset.refl _⟩
  · exact ⟨rfl, List.Subset.refl _⟩
  · exact ⟨rfl, List.Subset.refl _⟩

theorem withBlockhash_sameNetwork (s : Submission Signature) (tpu : Bool)
    (answer : Except String Signature) : s.SameNetwork (s.withBlockhash tpu answer) := by
  cases answer with
  | error e => exact ⟨rfl, List.Subset.refl _⟩
  | ok signature => exact ⟨rfl, List.Subset.refl _⟩

theorem rpcSent_sameNetwork (s : Submission Signature) (signature : Signature)
    (error : Option String) : s.SameNetwork (s.rpcSent signature error) := by
  cases error with
  | none => exact ⟨rfl, List.subset_cons_self _ _⟩
  | some e => exact ⟨rfl, List.subset_cons_self _ _⟩

/-- The results of a status: nothing new, a success that is reported, or a failure. -/
inductive StatusCase (s : Submission Signature) (signature : Signature) :
    Submission Signature → Prop
  | pending : StatusCase s signature s
  | succeeded : s.Succeeded signature → StatusCase s signature (s.returnOk signature)
  | failed {t} : ¬ s.Succeeded signature → s.SameNetwork t →
      (∀ result, t.phase ≠ .returned (.ok result)) → StatusCase s signature t

theorem returned_error_ne_ok {s : Submission Signature} {error : String × ℕ}
    (h : s.phase = .returned (.error error)) (signature : Signature) :
    s.phase ≠ .returned (.ok signature) := by
  rw [h]
  simp

theorem confirmationFailed_phase (s : Submission Signature) (e : String) :
    (s.confirmationFailed e).phase = .attempting ∨
      ∃ error, (s.confirmationFailed e).phase = .returned (.error error) := by
  unfold confirmationFailed
  simp only
  split_ifs
  · exact Or.inl rfl
  · exact Or.inr ⟨_, rfl⟩
  · exact Or.inl rfl

/-- A timeout is not taken for an error of the program. -/
theorem confirmationFailed_timeout (s : Submission Signature) :
    s.confirmationFailed "Confirmation timeout after 30s" =
      { s.record false with
        lastError := "Confirmation failed: Confirmation timeout after 30s"
        phase := .attempting } := by
  have htexts : isTriggerNotReadyError "Confirmation timeout after 30s" = false ∧
      isThreadPausedError "Confirmation timeout after 30s" = false := by
    decide +kernel
  unfold confirmationFailed
  simp only [htexts.1, htexts.2, Bool.false_eq_true, if_false]
  rfl

theorem tpuStatus_cases {s : Submission Signature} {signature : Signature} {answer : StatusAnswer}
    (h : s.Truthful signature answer) :
    s.StatusCase signature (s.tpuStatus signature (getSignatureStatus answer)) := by
  rcases hstatus : getSignatureStatus answer with e | none | code | done
  · exact StatusCase.pending
  · exact StatusCase.pending
  · refine StatusCase.failed (h.not_succeeded hstatus) ?_ ?_
    · unfold tpuStatus
      simp only
      split_ifs
      · exact ⟨rfl, List.Subset.refl _⟩
      · exact ⟨rfl, List.Subset.refl _⟩
      · exact ⟨rfl, List.Subset.refl _⟩
    · intro result
      unfold tpuStatus
      simp only
      split_ifs
      · simp
      · exact returned_error_ne_ok rfl result
      · exact returned_error_ne_ok rfl result
  · exact StatusCase.succeeded (h.succeeded hstatus)

theorem rpcStatus_cases {s : Submission Signature} {signature : Signature} {answer : StatusAnswer}
    (h : s.Truthful signature answer) :
    s.StatusCase signature (s.rpcStatus signature (getSignatureStatus answer)) := by
  rcases hstatus : getSignatureStatus answer with e | none | code | done
  · exact StatusCase.pending
  · exact StatusCase.pending
  · refine StatusCase.failed (h.not_succeeded hstatus) (s.confirmationFailed_sameNetwork _) ?_
    intro result
    rcases s.confirmationFailed_phase ("Transaction failed: " ++ errorText code) with
      hphase | ⟨error, hphase⟩
    · exact fun hok => absurd (hphase.symm.trans hok) (by simp)
    · exact returned_error_ne_ok hphase result
  · exact StatusCase.succeeded (h.succeeded hstatus)

/-! ## A reported success is one -/

/-- Only sent transactions land, and a success that is returned was one and was told. -/
structure Sound (s : Submission Signature) : Prop where
  sent : ∀ signature, s.landed signature ≠ none → signature ∈ s.submitted
  ok : ∀ signature, s.phase = .returned (.ok signature) →
    s.Succeeded signature ∧ s.told.head? = some true

/-- Steps of the worker that do not return a success. -/
theorem Sound.of_sameNetwork {s t : Submission Signature} (hs : s.Sound) (h : s.SameNetwork t)
    (hnot : ∀ signature, t.phase ≠ .returned (.ok signature)) : t.Sound := by
  refine ⟨fun signature hlanded => ?_, fun signature hok => absurd hok (hnot signature)⟩
  rw [h.landed] at hlanded
  exact h.submitted (hs.sent signature hlanded)

theorem Sound.of_statusCase {s t : Submission Signature} {signature : Signature} (hs : s.Sound)
    (h : s.StatusCase signature t) : t.Sound := by
  cases h with
  | pending => exact hs
  | succeeded hsucceeded =>
    refine ⟨hs.sent, fun other hok => ?_⟩
    obtain rfl : signature = other := by simpa [returnOk] using hok
    exact ⟨hsucceeded, rfl⟩
  | failed _ hnetwork hnot => exact hs.of_sameNetwork hnetwork hnot

theorem start_sound : (start : Submission Signature).Sound :=
  ⟨fun _ hlanded => absurd rfl hlanded, fun _ hok => absurd hok (by simp [start])⟩

/-! ## A success in sight is reported -/

theorem SameNetwork.succeeded_iff {s t : Submission Signature} (h : s.SameNetwork t)
    (signature : Signature) : t.Succeeded signature ↔ s.Succeeded signature := by
  unfold Succeeded
  rw [h.landed]

/-- A worker that goes on with the same transaction keeps it in sight. -/
theorem InSight.of_watches {s t : Submission Signature} (hs : s.InSight) (h : s.SameNetwork t)
    (hwatches : ∀ signature, s.Watches signature → t.Watches signature) : t.InSight :=
  fun signature hsucceeded =>
    hwatches signature (hs signature ((h.succeeded_iff signature).mp hsucceeded))

theorem InSight.of_none {s t : Submission Signature} (h : s.SameNetwork t)
    (hnone : ∀ signature, ¬ s.Succeeded signature) : t.InSight :=
  fun signature hsucceeded =>
    absurd ((h.succeeded_iff signature).mp hsucceeded) (hnone signature)

/-- Between two transactions there is no success. -/
theorem InSight.none_of_idle {s : Submission Signature} (hs : s.InSight)
    (hphase : s.phase = .attempting ∨ s.phase = .fetchingBlockhash) (signature : Signature) :
    ¬ s.Succeeded signature := by
  intro hsucceeded
  have hwatches := hs signature hsucceeded
  unfold Watches at hwatches
  rcases hphase with hphase | hphase
  · rw [hphase] at hwatches
    exact hwatches
  · rw [hphase] at hwatches
    exact hwatches

/-- If the transaction in sight has not succeeded, none has. -/
theorem InSight.none_of_not {s : Submission Signature} (hs : s.InSight) {current : Signature}
    (hcurrent : ∀ signature, s.Watches signature → current = signature)
    (hnot : ¬ s.Succeeded current) (signature : Signature) : ¬ s.Succeeded signature := by
  intro hsucceeded
  rw [hcurrent signature (hs signature hsucceeded)] at hnot
  exact hnot hsucceeded

theorem InSight.of_statusCase {s t : Submission Signature} {current : Signature}
    (hs : s.InSight) (hcurrent : ∀ signature, s.Watches signature → current = signature)
    (h : s.StatusCase current t) : t.InSight := by
  cases h with
  | pending => exact hs
  | succeeded hsucceeded => exact fun _ _ => trivial
  | failed hnot hnetwork _ => exact .of_none hnetwork (hs.none_of_not hcurrent hnot)

/-- Giving up a transaction loses sight of it exactly if it has succeeded. -/
theorem InSight.give_up_iff {s t : Submission Signature} (hs : s.InSight) {current : Signature}
    (hcurrent : ∀ signature, s.Watches signature → current = signature)
    (h : s.SameNetwork t) (hphase : t.phase = .attempting) :
    t.InSight ↔ ¬ s.Succeeded current := by
  constructor
  · intro ht hsucceeded
    exact ht.none_of_idle (Or.inl hphase) current ((h.succeeded_iff current).mpr hsucceeded)
  · intro hnot
    exact .of_none h (hs.none_of_not hcurrent hnot)

variable [DecidableEq Signature] {sign : Blockhash → Signature} {tpu : Bool}

theorem succeeded_land_self {s : Submission Signature} {signature : Signature}
    {err : Option JsonValue} : (s.land signature err).Succeeded signature ↔ err = none := by
  unfold Succeeded land
  simp

theorem succeeded_land_of_ne {s : Submission Signature} {signature other : Signature}
    (hother : other ≠ signature) {err : Option JsonValue} :
    (s.land signature err).Succeeded other ↔ s.Succeeded other := by
  unfold Succeeded land
  simp [hother]

theorem Step.sound {s t : Submission Signature} {ev : SubmissionEvent Blockhash Signature}
    (h : Step sign tpu s ev t) (hs : s.Sound) : t.Sound := by
  cases h with
  | cancel hrunning =>
    exact ⟨hs.sent, fun signature hok => absurd hok (hrunning _)⟩
  | @land signature err hrunning hsent hnew =>
    refine ⟨fun other hlanded => ?_, fun other hok => absurd hok (hrunning _)⟩
    by_cases hother : other = signature
    · rw [hother]
      exact hsent
    · refine hs.sent other ?_
      simpa only [Submission.land, Function.update_of_ne hother] using hlanded
  | attempt hphase =>
    refine hs.of_sameNetwork s.nextAttempt_sameNetwork fun signature => ?_
    unfold nextAttempt
    simp only
    split_ifs
    · exact returned_error_ne_ok rfl signature
    · simp
    · exact returned_error_ne_ok rfl signature
  | @blockhash answer hphase =>
    refine hs.of_sameNetwork (s.withBlockhash_sameNetwork tpu _) fun signature => ?_
    cases answer with
    | error e => simp [withBlockhash, Except.map]
    | ok hash =>
      simp only [withBlockhash, Except.map]
      split_ifs
      · simp
      · simp
  | tpuSend hphase =>
    exact hs.of_sameNetwork ⟨rfl, List.subset_cons_self _ _⟩ fun signature => by simp [tpuSent]
  | tpuStatus hphase htrue => exact hs.of_statusCase (tpuStatus_cases htrue)
  | tpuTimeout hphase =>
    exact hs.of_sameNetwork ⟨rfl, List.Subset.refl _⟩ fun signature => by simp
  | @rpcSend current error hphase =>
    refine hs.of_sameNetwork (s.rpcSent_sameNetwork current error) fun signature => ?_
    cases error with
    | none => simp [rpcSent]
    | some e => simp [rpcSent]
  | rpcStatus hphase htrue => exact hs.of_statusCase (rpcStatus_cases htrue)
  | rpcTimeout hphase =>
    refine hs.of_sameNetwork (s.confirmationFailed_sameNetwork _) fun signature => ?_
    rw [confirmationFailed_timeout]
    simp

/-- In every run a success that is returned is one, and the load balancer is told. -/
theorem sound_of_run {events : List (SubmissionEvent Blockhash Signature)}
    {s : Submission Signature} (h : Run (Step sign tpu) start events s) : s.Sound :=
  h.invariant (fun _ _ _ hs hstep => hstep.sound hs) start_sound

/-- The step lemma: the condition decides whether the successes stay in sight. -/
theorem Step.inSight_iff {s t : Submission Signature} {ev : SubmissionEvent Blockhash Signature}
    (h : Step sign tpu s ev t) (hs : s.InSight) : t.InSight ↔ s.KeepsSight ev := by
  cases h with
  | cancel hrunning => exact iff_of_true hs trivial
  | @land signature err hrunning hsent hnew =>
    cases err with
    | none =>
      constructor
      · intro ht
        exact ht signature (succeeded_land_self.mpr rfl)
      · intro hwatches other hsucceeded
        by_cases hother : other = signature
        · rw [hother]
          exact hwatches
        · exact hs other ((succeeded_land_of_ne hother).mp hsucceeded)
    | some e =>
      refine iff_of_true (fun other hsucceeded => ?_) trivial
      by_cases hother : other = signature
      · rw [hother] at hsucceeded
        exact absurd (succeeded_land_self.mp hsucceeded) (by simp)
      · exact hs other ((succeeded_land_of_ne hother).mp hsucceeded)
  | attempt hphase =>
    exact iff_of_true (.of_none s.nextAttempt_sameNetwork (hs.none_of_idle (Or.inl hphase)))
      trivial
  | blockhash hphase =>
    exact iff_of_true
      (.of_none (s.withBlockhash_sameNetwork tpu _) (hs.none_of_idle (Or.inr hphase))) trivial
  | @tpuSend current hphase =>
    refine iff_of_true (hs.of_watches ⟨rfl, List.subset_cons_self _ _⟩ fun signature hw => ?_)
      trivial
    rcases hphase with hphase | hphase
    · simpa only [Watches, hphase, tpuSent] using hw
    · simpa only [Watches, hphase, tpuSent] using hw
  | tpuStatus hphase htrue =>
    refine iff_of_true (hs.of_statusCase (fun signature hw => ?_) (tpuStatus_cases htrue)) trivial
    simpa only [Watches, hphase] using hw
  | tpuTimeout hphase =>
    refine iff_of_true (hs.of_watches ⟨rfl, List.Subset.refl _⟩ fun signature hw => ?_)
      fun signature hpoll => absurd (hphase.symm.trans hpoll) (by simp)
    simpa only [Watches, hphase] using hw
  | @rpcSend current error hphase =>
    have hnetwork := s.rpcSent_sameNetwork current error
    cases error with
    | none =>
      refine iff_of_true (hs.of_watches hnetwork fun signature hw => ?_) trivial
      simpa only [Watches, hphase, rpcSent] using hw
    | some e =>
      have hcurrent : ∀ signature, s.Watches signature → current = signature := by
        intro signature hw
        simpa only [Watches, hphase] using hw
      rw [hs.give_up_iff hcurrent hnetwork rfl]
      simp only [KeepsSight, hphase, SubmissionPhase.rpcSend.injEq, forall_eq']
  | rpcStatus hphase htrue =>
    refine iff_of_true (hs.of_statusCase (fun signature hw => ?_) (rpcStatus_cases htrue)) trivial
    simpa only [Watches, hphase] using hw
  | @rpcTimeout current hphase =>
    have hcurrent : ∀ signature, s.Watches signature → current = signature := by
      intro signature hw
      simpa only [Watches, hphase] using hw
    have hidle : (s.confirmationFailed "Confirmation timeout after 30s").phase = .attempting := by
      rw [confirmationFailed_timeout]
    rw [hs.give_up_iff hcurrent (s.confirmationFailed_sameNetwork _) hidle]
    simp only [KeepsSight, hphase, SubmissionPhase.rpcPoll.injEq, forall_eq']

theorem inSight_of_run {events : List (SubmissionEvent Blockhash Signature)}
    {s : Submission Signature} (h : Run (Guarded (Step sign tpu) KeepsSight) start events s) :
    s.InSight := by
  refine h.invariant (fun _ _ _ hs hstep => (hstep.2.inSight_iff hs).mpr hstep.1) ?_
  intro signature hsucceeded
  exact absurd hsucceeded (by simp [Succeeded, start])

/-- The result tells the truth in every run in which no transaction succeeds out of sight. -/
theorem submission_tells_truth {events : List (SubmissionEvent Blockhash Signature)}
    {s : Submission Signature} (h : Run (Guarded (Step sign tpu) KeepsSight) start events s) :
    s.TellsTruth := by
  have hsound := sound_of_run (h.mono fun _ _ _ hstep => hstep.2)
  refine ⟨?_, fun signature hok => ?_⟩
  · rintro result hreturned ⟨signature, -, hsucceeded⟩
    have hwatches := inSight_of_run h signature hsucceeded
    unfold Watches at hwatches
    rw [hreturned] at hwatches
    cases result with
    | error error => exact absurd hwatches id
    | ok reported => exact ⟨⟨reported, rfl⟩, (hsound.ok reported hreturned).2⟩
  · have hsucceeded := (hsound.ok signature hok).1
    refine ⟨signature, hsound.sent signature ?_, hsucceeded⟩
    rw [hsucceeded]
    simp

/-- A transaction that lands and is confirmed. -/
def confirmedRun : List (SubmissionEvent ℕ ℕ) :=
  [.attempt, .blockhash (.ok 1), .rpcSend none, .land 1 none,
    .status (.ok (some [some ⟨none, some "confirmed"⟩]))]

theorem confirmed_submission_tells_truth :
    ∃ s : Submission ℕ, Run (Guarded (Step id false) KeepsSight) start confirmedRun s ∧
      s.phase = .returned (.ok 1) ∧ s.TellsTruth := by
  have hrun : ∃ s : Submission ℕ, Run (Guarded (Step id false) KeepsSight) start confirmedRun s ∧
      s.phase = .returned (.ok 1) := by
    refine ⟨_, .cons ⟨trivial, .attempt rfl⟩ (.cons ⟨trivial, .blockhash rfl⟩
      (.cons ⟨trivial, .rpcSend rfl⟩ (.cons ⟨rfl, .land ?_ ?_ rfl⟩
        (.cons ⟨trivial, .rpcStatus rfl ?_⟩ (.nil _))))), ?_⟩
    · intro result hreturned
      cases hreturned
    · exact List.mem_cons_self
    · rintro statuses status ⟨⟩ ⟨⟩ _
      rfl
    · rfl
  obtain ⟨s, hguarded, hreturned⟩ := hrun
  exact ⟨s, hguarded, hreturned, submission_tells_truth hguarded⟩

/-- An attempt whose transaction the RPC endpoint refuses. -/
def refusedAttempt (hash : ℕ) : List (SubmissionEvent ℕ ℕ) :=
  [.attempt, .blockhash (.ok hash), .rpcSend (some "custom program error: 0x1774")]

/-- The transaction of the first attempt lands after the timeout, and the trigger is not ready
for the others. -/
def lateRun : List (SubmissionEvent ℕ ℕ) :=
  [.attempt, .blockhash (.ok 1), .rpcSend none, .timeout, .land 1 none] ++
    (refusedAttempt 2 ++ refusedAttempt 3 ++ refusedAttempt 4 ++ refusedAttempt 5) ++ [.attempt]

theorem refusedAttempt_run {s : Submission ℕ} (hash : ℕ) (hphase : s.phase = .attempting)
    (hleft : s.attempt < maxAttempts) (hrunning : s.cancelled = false) :
    Run (Step id false) s (refusedAttempt hash)
      { s with
        attempt := s.attempt + 1
        lastError := "Transaction send failed: custom program error: 0x1774"
        phase := .attempting
        told := false :: s.told
        submitted := hash :: s.submitted } := by
  have hnext : s.nextAttempt =
      { s with attempt := s.attempt + 1, phase := .fetchingBlockhash } := by
    simp only [nextAttempt, hleft, hrunning, if_true, Bool.false_eq_true, if_false]
  have hattempt : Step id false s (.attempt : SubmissionEvent ℕ ℕ) s.nextAttempt :=
    .attempt hphase
  rw [hnext] at hattempt
  exact .cons hattempt (.cons (.blockhash rfl) (.cons (.rpcSend rfl) (.nil _)))

/-- The first attempt, up to its timeout. -/
def timedOut : Submission ℕ where
  attempt := 1
  lastError := "Confirmation failed: Confirmation timeout after 30s"
  cancelled := false
  phase := .attempting
  told := [false]
  submitted := [1]
  landed := fun _ => none

theorem timedOut_run :
    Run (Step id false) start
      ([.attempt, .blockhash (.ok 1), .rpcSend none, .timeout] : List (SubmissionEvent ℕ ℕ))
      timedOut := by
  let sent : Submission ℕ := { timedOut with lastError := "", phase := .rpcPoll 1, told := [] }
  have htimeout : Step id false sent (.timeout : SubmissionEvent ℕ ℕ)
      (sent.confirmationFailed "Confirmation timeout after 30s") :=
    .rpcTimeout rfl
  rw [confirmationFailed_timeout] at htimeout
  exact .cons (.attempt rfl) (.cons (.blockhash rfl) (.cons (.rpcSend rfl)
    (.cons htimeout (.nil _))))

/-- The batch was executed, and the result and the load balancer say that it was not. -/
theorem late_success_is_reported_as_failure :
    ∃ s : Submission ℕ, Run (Step id false) start lateRun s ∧
      s.phase =
        .returned (.error ("Transaction send failed: custom program error: 0x1774", 5)) ∧
      1 ∈ s.submitted ∧ s.Succeeded 1 ∧ true ∉ s.told ∧ ¬ s.TellsTruth := by
  have hland : Run (Step id false) timedOut
      ([.land 1 none] : List (SubmissionEvent ℕ ℕ)) (timedOut.land 1 none) := by
    refine .cons (.land ?_ List.mem_cons_self rfl) (.nil _)
    intro result hreturned
    cases hreturned
  have hretries := (((refusedAttempt_run (s := timedOut.land 1 none) 2 rfl (by decide) rfl).append
    (refusedAttempt_run 3 rfl (by decide) rfl)).append
    (refusedAttempt_run 4 rfl (by decide) rfl)).append
    (refusedAttempt_run 5 rfl (by decide) rfl)
  have hrun := ((timedOut_run.append hland).append hretries).append (.cons (.attempt rfl) (.nil _))
  have hsucceeded : (timedOut.land 1 none).Succeeded 1 := succeeded_land_self.mpr rfl
  refine ⟨_, hrun, rfl, by decide, hsucceeded, by decide, fun htruth => ?_⟩
  obtain ⟨⟨signature, hok⟩, -⟩ := htruth.landed _ rfl ⟨1, by decide, hsucceeded⟩
  cases hok

end Submission

end Antegen.Client
