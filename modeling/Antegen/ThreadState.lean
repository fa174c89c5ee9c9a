import Antegen.Basic
import Mathlib.Data.List.Sort

/-!
# Thread state, cursor and triggers

The stored thread, the cyclic successor on its fiber indices, and the two
functions that decide when a thread may fire and what its schedule is afterwards.
The hashes of the standard library and the cron search are parameters. Account
data reaches these functions as the list of remaining accounts.
-/
namespace Antegen

inductive Trigger
  | account (address : Pubkey) (offset size : ℕ)
  | immediate (jitter : ℕ)
  | timestamp (unixTs : ℤ) (jitter : ℕ)
  | interval (seconds : ℤ) (skippable : Bool) (jitter : ℕ)
  | cron (schedule : String) (skippable : Bool) (jitter : ℕ)
  | slot (slot : ℕ)
  | epoch (epoch : ℕ)
  deriving DecidableEq, Repr

inductive Schedule
  | onChange (prev : ℕ)
  | timed (prev next : ℤ)
  | block (prev next : ℕ)
  deriving DecidableEq, Repr

/-- What a fiber asks for after its execution. `again` is `Signal::Repeat`. -/
inductive Signal
  | none
  | chain
  | close
  | again
  | next (index : UInt8)
  | update (paused : Option Bool) (trigger : Option Trigger) (index : Option UInt8)
  deriving DecidableEq, Repr

structure Thread where
  version : UInt8
  bump : UInt8
  authority : Pubkey
  id : List UInt8
  createdAt : ℤ
  trigger : Trigger
  schedule : Schedule
  fiberIds : List UInt8
  fiberCursor : UInt8
  fiberNextId : UInt8
  fiberSignal : Signal
  paused : Bool
  execCount : ℕ
  lastExecutor : Pubkey
  nonceAccount : Pubkey
  closeFiber : List UInt8
  deriving DecidableEq, Repr

structure Clock where
  slot : ℕ
  epoch : ℕ
  unixTimestamp : ℤ
  deriving DecidableEq, Repr

structure AccountInfo where
  key : Pubkey
  data : List UInt8
  deriving DecidableEq, Repr

/-- Functions the programs call that are defined elsewhere. -/
structure Host where
  jitterHash : ℤ → Pubkey → ℕ
  dataHash : List UInt8 → ℕ
  nextTimestamp : ℤ → String → Result (Option ℤ)

/-- Cyclic successor of a cursor in a list of indices. A cursor that is not in
the list goes to its head, and every cursor to zero when the list is empty. -/
def cyclicNext (ids : List UInt8) (cursor : UInt8) : UInt8 :=
  if ids = [] then 0
  else match ids.idxOf? cursor with
    | some pos => ids.getD ((pos + 1) % ids.length) 0
    | none => ids.headD 0

namespace Thread

def hasNonceAccount (t : Thread) : Bool :=
  t.nonceAccount ≠ systemProgram && t.nonceAccount ≠ threadProgram

def nextFiberIndex (t : Thread) : UInt8 := cyclicNext t.fiberIds t.fiberCursor

def advanceToNextFiber (t : Thread) : Thread :=
  { t with fiberCursor := cyclicNext t.fiberIds t.fiberCursor }

def validateForExecution (t : Thread) : Result Unit := do
  require (t.fiberIds ≠ []) (.thread .threadHasNoFibersToExecute)
  require (t.fiberCursor ∈ t.fiberIds) (.thread .invalidExecIndex)

def getLastStartedAt (t : Thread) : ℤ :=
  match t.schedule with
  | .timed prev _ => prev
  | .block prev _ => asI64 prev
  | .onChange _ => t.createdAt

end Thread

/-- Deterministic delay below `jitter`, from the previous start and the thread. -/
def calculateJitterOffset (h : Host) (prev : ℤ) (thread : Pubkey) (jitter : ℕ) : ℤ :=
  if jitter = 0 then 0 else asI64 (h.jitterHash prev thread % jitter)

/-- The watched bytes of an account: a window cut off at the end of the data. -/
def watchedSlice (data : List UInt8) (offset size : ℕ) : Result (List UInt8) :=
  if 2 ^ 64 ≤ offset + size then .error .panic
  else if offset + size < data.length then .ok ((data.take (offset + size)).drop offset)
  else if data.length < offset then .error .panic
  else .ok (data.drop offset)

/-- Approximate moment at which a slot was reached, at 400 ms a slot. -/
def slotReadyTime (clock : Clock) (slot : ℕ) : Result ℤ := do
  let elapsed ← checkI64 (asI64 (clock.slot - slot) * 400)
  checkI64 (clock.unixTimestamp - elapsed.tdiv 1000)

/-- The moment stored in a timed schedule must have been reached. -/
def scheduledReadyTime (t : Thread) (clock : Clock) : Result ℤ :=
  match t.schedule with
  | .timed _ next => do
    require (next ≤ clock.unixTimestamp) (.thread .triggerConditionFailed)
    pure next
  | _ => .error (.thread .triggerConditionFailed)

/-- The watched slice must differ from the hash stored in the schedule. -/
def changedReadyTime (h : Host) (t : Thread) (clock : Clock) (remaining : List AccountInfo)
    (address : Pubkey) (offset size : ℕ) : Result ℤ := do
  let info ← ofOption (.thread .triggerConditionFailed) remaining.head?
  require (address = info.key) (.thread .triggerConditionFailed)
  let slice ← watchedSlice info.data offset size
  match t.schedule with
  | .onChange prev => do
    require (h.dataHash slice ≠ prev) (.thread .triggerConditionFailed)
    pure clock.unixTimestamp
  | _ => pure clock.unixTimestamp

/-- Moment at which the trigger became ready, or a failure if it is not. -/
def triggerReadyTime (h : Host) (t : Thread) (clock : Clock) (remaining : List AccountInfo)
    (thread : Pubkey) : Result ℤ :=
  match t.trigger with
  | .immediate jitter =>
    .ok (saturate (clock.unixTimestamp +
      calculateJitterOffset h t.getLastStartedAt thread jitter))
  | .timestamp unixTs jitter =>
    let triggerTime := saturate (unixTs + calculateJitterOffset h t.getLastStartedAt thread jitter)
    do
      require (triggerTime ≤ clock.unixTimestamp) (.thread .triggerConditionFailed)
      pure triggerTime
  | .slot slot => do
    require (slot ≤ clock.slot) (.thread .triggerConditionFailed)
    slotReadyTime clock slot
  | .epoch epoch => do
    require (epoch ≤ clock.epoch) (.thread .triggerConditionFailed)
    pure clock.unixTimestamp
  | .interval _ _ _ => scheduledReadyTime t clock
  | .cron _ _ _ => scheduledReadyTime t clock
  | .account address offset size => changedReadyTime h t clock remaining address offset size

/-- `validate_trigger`: seconds elapsed since the trigger became ready. -/
def validateTrigger (h : Host) (t : Thread) (clock : Clock) (remaining : List AccountInfo)
    (thread : Pubkey) : Result ℤ := do
  let ready ← triggerReadyTime h t clock remaining thread
  pure (saturate (clock.unixTimestamp - ready))

/-- The schedule that `update_schedule` stores once a firing is complete. -/
def nextSchedule (h : Host) (trigger : Trigger) (clock : Clock) (remaining : List AccountInfo)
    (thread : Pubkey) : Result Schedule :=
  match trigger with
  | .account _ offset size => do
    let info ← ofOption (.thread .triggerConditionFailed) remaining.head?
    let slice ← watchedSlice info.data offset size
    pure (.onChange (h.dataHash slice))
  | .cron schedule _ jitter => do
    let found ← h.nextTimestamp clock.unixTimestamp schedule
    let nextCron ← ofOption (.thread .triggerConditionFailed) found
    pure (.timed clock.unixTimestamp
      (saturate (nextCron + calculateJitterOffset h clock.unixTimestamp thread jitter)))
  | .immediate _ => .ok (.timed clock.unixTimestamp 0)
  | .slot slot => .ok (.block clock.slot slot)
  | .epoch epoch => .ok (.block clock.epoch epoch)
  | .interval seconds _ jitter =>
    .ok (.timed clock.unixTimestamp
      (saturate (saturate (clock.unixTimestamp + seconds) +
        calculateJitterOffset h clock.unixTimestamp thread jitter)))
  | .timestamp unixTs _ => .ok (.timed clock.unixTimestamp unixTs)

def updateSchedule (h : Host) (t : Thread) (clock : Clock) (remaining : List AccountInfo)
    (thread : Pubkey) : Result Thread :=
  (nextSchedule h t.trigger clock remaining thread).map fun s => { t with schedule := s }

/-- The schedule that `thread_create` and `thread_update` both initialise. -/
def initialSchedule (h : Host) (trigger : Trigger) (clock : Clock) (thread : Pubkey) :
    Result Schedule :=
  match trigger with
  | .account _ _ _ => .ok (.onChange 0)
  | .cron schedule _ jitter => do
    let found ← h.nextTimestamp clock.unixTimestamp schedule
    pure (.timed clock.unixTimestamp
      (saturate (found.getD clock.unixTimestamp +
        calculateJitterOffset h clock.unixTimestamp thread jitter)))
  | .immediate _ => .ok (.timed clock.unixTimestamp clock.unixTimestamp)
  | .slot slot => .ok (.block clock.slot slot)
  | .epoch epoch => .ok (.block clock.epoch epoch)
  | .interval seconds _ jitter =>
    .ok (.timed clock.unixTimestamp
      (saturate (saturate (clock.unixTimestamp + seconds) +
        calculateJitterOffset h clock.unixTimestamp thread jitter)))
  | .timestamp unixTs _ => .ok (.timed clock.unixTimestamp unixTs)

end Antegen
