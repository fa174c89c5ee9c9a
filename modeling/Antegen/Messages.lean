import Antegen.Staging

/-!
# Messages of the client's actors

What datasources, staging actor, processor and workers send to each other. An actor
handles the messages of its mailbox one after another. A send appends to the mailbox
and fails once the actor has stopped.
-/
namespace Antegen.Client

/-- The mailbox of an actor, oldest message first. -/
structure Mailbox (α : Type) where
  running : Bool
  messages : List α
  deriving DecidableEq, Repr

def Mailbox.send {α : Type} (m : Mailbox α) (message : α) : Option (Mailbox α) :=
  if m.running then some { m with messages := m.messages ++ [message] } else none

structure AccountUpdate where
  pubkey : Pubkey
  data : List UInt8
  slot : ℕ
  deriving DecidableEq, Repr

inductive RpcSourceMessage
  | updateReceived (update : AccountUpdate)
  | clockReceived (clock : Clock)
  | reconnected
  | subscriptionDied (which : String)
  deriving DecidableEq, Repr

/-- Whether a completed thread is to be scheduled again at once. -/
inductive CompletionReason
  | executed
  | skipped
  deriving DecidableEq, Repr

inductive StagingMessage
  | accountUpdate (update : AccountUpdate)
  | clockTick (clock : Clock)
  | threadCompleted (threadPubkey : Pubkey) (reason : CompletionReason)
  | setProcessorRef
  | queryStatus
  | shutdown
  deriving DecidableEq, Repr

/-- A thread that is due, as staging hands it to the processor. -/
structure ReadyThread where
  threadPubkey : Pubkey
  execCount : ℕ
  isOverdue : Bool
  overdueSeconds : ℤ
  deriving DecidableEq, Repr

/-- What a worker reports. -/
structure ExecutionResult where
  threadPubkey : Pubkey
  success : Bool
  skipped : Bool
  error : Option String
  attemptCount : ℕ
  deriving DecidableEq, Repr

inductive ProcessorMessage
  | processReady (ready : ReadyThread)
  | cancelThread (threadPubkey : Pubkey)
  | workerCompleted (result : ExecutionResult)
  | queryStatus
  | shutdown
  deriving DecidableEq, Repr

end Antegen.Client
