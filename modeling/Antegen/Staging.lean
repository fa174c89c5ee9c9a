import Antegen.ThreadState

/-!
# The client's view of readiness

`is_ready` decides on the fetched thread. The staging actor decides on an entry that
`schedule_thread` pushes into one of three queues, by comparing the value of the entry
with the clock value of its queue. Both look at the stored schedule and not at the
trigger's own moment.
-/
namespace Antegen

/-- Epoch triggers are never ready here, and account triggers are left to an observer. -/
def Thread.isReady (t : Thread) (currentSlot : ℕ) (currentTimestamp : ℤ) : Bool :=
  match t.schedule with
  | .timed _ next => next ≤ currentTimestamp
  | .block _ next =>
    match t.trigger with
    | .slot _ => next ≤ currentSlot
    | _ => false
  | .onChange _ => false

namespace Staging

inductive QueueType
  | timestamp
  | slot
  | epoch
  deriving DecidableEq, Repr

/-- An entry of a queue; the count tells a stale entry from a fresh one. -/
structure ScheduledThread where
  triggerValue : ℕ
  threadPubkey : Pubkey
  execCount : ℕ
  deriving DecidableEq, Repr

/-- What becomes of a thread: an entry in a queue, or a warning and no entry. -/
inductive Scheduled
  | pushed (queue : QueueType) (entry : ScheduledThread)
  | mismatched
  | unsupported
  deriving DecidableEq, Repr

/-- The queue and the value for a trigger and its schedule. -/
def scheduleThread (threadPubkey : Pubkey) (t : Thread) : Scheduled :=
  let timed : Scheduled := match t.schedule with
    | .timed _ next => .pushed .timestamp ⟨(max next 0).toNat, threadPubkey, t.execCount⟩
    | _ => .mismatched
  let block (queue : QueueType) : Scheduled := match t.schedule with
    | .block _ next => .pushed queue ⟨next, threadPubkey, t.execCount⟩
    | _ => .mismatched
  match t.trigger with
  | .immediate _ => timed
  | .timestamp _ _ => timed
  | .interval _ _ _ => timed
  | .cron _ _ _ => timed
  | .slot _ => block .slot
  | .epoch _ => block .epoch
  | .account _ _ _ => .unsupported

/-- The value a queue is compared with, as `get_ready_threads` passes it. -/
def currentValue (clock : Clock) : QueueType → ℕ
  | .timestamp => (max clock.unixTimestamp 0).toNat
  | .slot => clock.slot
  | .epoch => clock.epoch

/-- The test of `check_queue` on the entry at the top of a queue. -/
def ScheduledThread.due (entry : ScheduledThread) (currentValue : ℕ) : Bool :=
  entry.triggerValue ≤ currentValue

/-- The thread is due by the entry that was made for it. -/
def Scheduled.due (clock : Clock) : Scheduled → Bool
  | .pushed queue entry => entry.due (currentValue clock queue)
  | _ => false

end Staging

end Antegen
