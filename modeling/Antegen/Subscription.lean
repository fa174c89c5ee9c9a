import Antegen.Backfill
import Antegen.Transport

/-!
# The subscriptions of a datasource

A source has a subscription to the threads and one to the clock, each with a transport of its
own. A watcher reports a subscription that has ended, and the source starts it again, three
times at most. A transport reconnects by itself once it has connected, so what is reported is
a first connect that has failed.

What the server sends, the requests that subscribe and the parsing of the notifications are
parameters. What goes on after the source has stopped is left out.
-/
namespace Antegen.Client

open Transition Ws

inductive SubscriptionKind
  | program
  | clock
  deriving DecidableEq, Repr

def SubscriptionKind.which : SubscriptionKind → String
  | program => "program"
  | clock => "clock"

theorem SubscriptionKind.which_injective {k k' : SubscriptionKind} (h : k.which = k'.which) :
    k = k' := by
  cases k <;> cases k' <;> first
    | rfl
    | exact absurd h (by decide)

/-- The message of the watcher. -/
def died (k : SubscriptionKind) : RpcSourceMessage := .subscriptionDied k.which

structure SubscriptionEnv where
  spawn : Ws.Spawn
  subscribeMsg : SubscriptionKind → String
  parseProgramNotification : String → Option AccountUpdate
  parseClockNotification : String → Option Clock

/-- What a notification is to the source. -/
def SubscriptionEnv.notification (env : SubscriptionEnv) :
    SubscriptionKind → Message → Option RpcSourceMessage
  | .program, .text text => (env.parseProgramNotification text).map .updateReceived
  | .clock, .text text => (env.parseClockNotification text).map .clockReceived
  | _, _ => none

/-- Where the task of a subscription is, and whether its watcher has reported it. -/
inductive SubscriptionTask
  | connecting
  | receiving
  | ended
  | reported
  deriving DecidableEq, Repr

structure Subscription where
  task : SubscriptionTask
  transport : Transport

def Subscription.fresh : Subscription := ⟨.connecting, .spawn⟩

/-- The count that a kind of subscription has. -/
def RpcSource.restartCount {e : CacheEnv} (s : RpcSource e) : SubscriptionKind → ℕ
  | .program => s.programRestartCount
  | .clock => s.clockRestartCount

structure Datasource (e : CacheEnv) where
  source : RpcSource e
  subscription : SubscriptionKind → Subscription
  stopped : Option SourceError

inductive DatasourceEvent (e : CacheEnv)
  | network (k : SubscriptionKind) (ev : TransportEvent)
  | receive (k : SubscriptionKind) (message : Message)
  | finish (k : SubscriptionKind)
  | watch (k : SubscriptionKind)
  | handle (message : RpcSourceMessage) (node : SourceNode)
  | others (cache : AccountCache e) (staging : Mailbox StagingMessage)

namespace Datasource

variable {e : CacheEnv}

/-- Behind `pre_start` both subscriptions are on their way. -/
def start (cache : AccountCache e) (staging : Mailbox StagingMessage) : Datasource e where
  source := ⟨cache, ⟨true, []⟩, staging, 0, 0⟩
  subscription := fun _ => .fresh
  stopped := none

variable (env : SubscriptionEnv) (y : Datasource e)

/-- A message to the source. That it fails is ignored. -/
def tell (message : RpcSourceMessage) : Datasource e :=
  { y with source := { y.source with own := (y.source.own.send message).getD y.source.own } }

def update (k : SubscriptionKind) (sub : Subscription) : Datasource e :=
  { y with subscription := Function.update y.subscription k sub }

/-- The task goes on when the first connect has an answer. -/
def answered (task : SubscriptionTask) : Except SocketError Unit → SubscriptionTask
  | .ok () => if task = .connecting then .receiving else task
  | .error _ => if task = .connecting then .ended else task

/-- A step of a transport. `on_connect` sends the request and tells the source of a connection
for the threads. -/
def network (k : SubscriptionKind) (ev : TransportEvent) : Option (Datasource e) := do
  let sub := y.subscription k
  let transport ← sub.transport.step env.spawn ev
  match ev with
  | .connect answer => some (y.update k ⟨answered sub.task answer, transport⟩)
  | .onConnect sent (.ok ()) =>
    if sent = [.text (env.subscribeMsg k)] then
      let y := y.update k { sub with transport := transport }
      if k = .program then some (y.tell .reconnected) else some y
    else none
  | .write _ => some (y.update k { sub with transport := transport })
  | .inbound _ => some (y.update k { sub with transport := transport })
  | .tick _ => some (y.update k { sub with transport := transport })
  | .wake => some (y.update k { sub with transport := transport })
  | _ => none

/-- The loop of a subscription takes a message. It ends if the source is gone. -/
def receive (k : SubscriptionKind) (message : Message) : Option (Datasource e) := do
  let sub := y.subscription k
  if sub.task = .receiving then
    let transport ← sub.transport.step env.spawn (.recv message)
    match env.notification k message with
    | none => some (y.update k { sub with transport := transport })
    | some notification =>
      match y.source.own.send notification with
      | some own =>
        some { y.update k { sub with transport := transport } with
          source := { y.source with own := own } }
      | none =>
        let transport ← transport.step env.spawn .dropReceiver
        some (y.update k ⟨.ended, transport⟩)
  else none

/-- Nothing is left to receive from a transport that has ended. -/
def finish (k : SubscriptionKind) : Option (Datasource e) :=
  let sub := y.subscription k
  if sub.task = .receiving ∧ sub.transport.phase = .exited ∧ sub.transport.incoming = [] then
    some (y.update k { sub with task := .ended })
  else none

def watch (k : SubscriptionKind) : Option (Datasource e) :=
  let sub := y.subscription k
  if sub.task = .ended then some ((y.update k { sub with task := .reported }).tell (died k))
  else none

/-- A subscription that was reported is started again, unless the source stops. -/
def respawn (message : RpcSourceMessage) : SubscriptionKind → Subscription := fun k =>
  if message = died k then .fresh else y.subscription k

def handle (message : RpcSourceMessage) (node : SourceNode) : Option (Datasource e) :=
  match y.source.own.messages with
  | [] => none
  | head :: rest =>
    if head = message then
      let source := { y.source with own := { y.source.own with messages := rest } }
      match source.handle node message with
      | .ok source =>
        some { y with source := source, subscription := y.respawn message }
      | .error error =>
        some { y with
          source := { source with own := { source.own with running := false } }
          stopped := some error }
    else none

def step (ev : DatasourceEvent e) : Option (Datasource e) :=
  if y.stopped = none then
    match ev with
    | .network k ev => y.network env k ev
    | .receive k message => y.receive env k message
    | .finish k => y.finish k
    | .watch k => y.watch k
    | .handle message node => y.handle message node
    | .others cache staging =>
      some { y with source := { y.source with cache := cache, staging := staging } }
  else none

/-! ## What a subscription has behind it -/

/-- The outcome of a connect for the kind. -/
def connectOutcome (k : SubscriptionKind) : DatasourceEvent e → Option Bool
  | .network k' (.connect (.ok _)) => if k' = k then some true else none
  | .network k' (.connect (.error _)) => if k' = k then some false else none
  | _ => none

def outcomes (k : SubscriptionKind) (events : List (DatasourceEvent e)) : List Bool :=
  events.filterMap (connectOutcome k)

/-- A transport whose first connect has no answer yet. -/
structure Fresh (t : Transport) : Prop where
  firstTx : t.firstTx = true
  phase : t.phase = .connecting
  senders : 0 < t.senders
  receiver : t.receiver = true

/-- A transport that has connected and does not end by itself. -/
structure Live (t : Transport) : Prop where
  firstTx : t.firstTx = false
  phase : t.phase ≠ .exited
  senders : 0 < t.senders
  receiver : t.receiver = true

/-- With `n` restarts behind it, a subscription has had that many first connects that failed,
and one more if it has ended. It is reported once. -/
def Supervised (outcomes : List Bool) (n : ℕ) (sub : Subscription) (reports : ℕ) : Prop :=
  match sub.task with
  | .connecting => Fresh sub.transport ∧ outcomes = List.replicate n false ∧ reports = 0
  | .receiving => Live sub.transport ∧
    (∃ more, outcomes = List.replicate n false ++ true :: more) ∧ reports = 0
  | .ended => sub.transport.phase = .exited ∧ outcomes = List.replicate (n + 1) false ∧ reports = 0
  | .reported =>
    sub.transport.phase = .exited ∧ outcomes = List.replicate (n + 1) false ∧ reports = 1

/-- What happens to the transport of a subscription that receives. -/
def Gentle : TransportEvent → Prop
  | .connect _ => True
  | .onConnect _ (.ok _) => True
  | .write _ => True
  | .inbound _ => True
  | .tick _ => True
  | .wake => True
  | .recv _ => True
  | _ => False

theorem Live.step {c : Ws.Spawn} {t t' : Transport} {ev : TransportEvent} (h : Live t)
    (hgentle : Gentle ev) (hstep : t.step c ev = some t') : Live t' := by
  obtain ⟨hsenders, hfirst, hreceiver, hexited⟩ := Transport.step_effect hstep
  refine ⟨?_, fun hphase => ?_, hsenders h.senders, ?_⟩
  · by_contra htrue
    have hold := (hfirst (Bool.eq_true_of_not_eq_false htrue)).1
    exact absurd (h.firstTx.symm.trans hold) (by simp)
  · rcases hexited h.senders hphase with ⟨hold, -⟩ | ⟨e, -, hold⟩ | ⟨sent, rfl⟩ |
      ⟨f, message, -, -, hgone⟩ | rfl
    · exact h.phase hold
    · exact absurd (h.firstTx.symm.trans hold) (by simp)
    · exact absurd hgentle id
    · exact absurd (h.receiver.symm.trans hgone) (by simp)
    · exact absurd hgentle id
  · by_contra hfalse
    rcases hreceiver (Bool.eq_false_of_not_eq_true hfalse) with hgone | rfl
    · exact absurd (h.receiver.symm.trans hgone) (by simp)
    · exact absurd hgentle id

/-- The task behind an event of its transport. -/
def taskAfter (task : SubscriptionTask) : TransportEvent → SubscriptionTask
  | .connect answer => answered task answer
  | _ => task

/-- What a connection sends to the source. -/
def announced : SubscriptionKind → TransportEvent → List RpcSourceMessage
  | .program, .onConnect _ _ => [.reconnected]
  | _, _ => []

/-- More messages for the source. -/
def withMessages (y : Datasource e) (messages : List RpcSourceMessage) : RpcSource e :=
  { y.source with own := { y.source.own with messages := y.source.own.messages ++ messages } }

/-- A step of the transport of one subscription. -/
structure Networked (env : SubscriptionEnv) (k : SubscriptionKind) (ev : TransportEvent)
    (y y' : Datasource e) : Prop where
  gentle : Gentle ev
  source : y'.source = y.withMessages (announced k ev)
  stopped : y'.stopped = y.stopped
  subscription : ∃ t, (y.subscription k).transport.step env.spawn ev = some t ∧
    y'.subscription = Function.update y.subscription k ⟨taskAfter (y.subscription k).task ev, t⟩

variable {env : SubscriptionEnv} {y y' : Datasource e} {k : SubscriptionKind}

theorem withMessages_nil : y.withMessages [] = y.source := by
  unfold withMessages
  rw [List.append_nil]

theorem tell_of_running (hrunning : y.source.own.running = true) (message : RpcSourceMessage) :
    (y.tell message).source = y.withMessages [message] := by
  unfold tell withMessages
  rw [Mailbox.send_running hrunning]
  rfl

theorem network_eq_some {ev : TransportEvent} (hrunning : y.source.own.running = true)
    (h : y.network env k ev = some y') : Networked env k ev y y' := by
  unfold network at h
  simp only [Option.bind_eq_bind, Option.bind_eq_some_iff] at h
  obtain ⟨t, ht, h⟩ := h
  have hquiet : Gentle ev → announced k ev = [] →
      taskAfter (y.subscription k).task ev = (y.subscription k).task →
      some (y.update k { y.subscription k with transport := t }) = some y' →
      Networked env k ev y y' := by
    intro hgentle hnone htask hy
    obtain rfl := Option.some.inj hy
    refine ⟨hgentle, ?_, rfl, t, ht, ?_⟩
    · rw [hnone, withMessages_nil]
      rfl
    · rw [htask]
      rfl
  cases ev with
  | connect answer =>
    obtain rfl := Option.some.inj h
    refine ⟨trivial, ?_, rfl, t, ht, rfl⟩
    have hnone : announced k (.connect answer) = [] := by cases k <;> rfl
    rw [hnone, withMessages_nil]
    rfl
  | onConnect sent answer =>
    cases answer with
    | error failure => exact absurd h (by simp)
    | ok done =>
      have hgentle : Gentle (.onConnect sent (.ok done)) := trivial
      simp only at h
      split_ifs at h with hsent hk
      · obtain rfl := Option.some.inj h
        subst hk
        exact ⟨hgentle, tell_of_running hrunning .reconnected, rfl, t, ht, rfl⟩
      · refine hquiet hgentle ?_ rfl h
        cases k with
        | program => exact absurd rfl hk
        | clock => rfl
  | write answer => exact hquiet trivial (by cases k <;> rfl) rfl h
  | inbound item => exact hquiet trivial (by cases k <;> rfl) rfl h
  | tick answer => exact hquiet trivial (by cases k <;> rfl) rfl h
  | wake => exact hquiet trivial (by cases k <;> rfl) rfl h
  | send message => exact absurd h (by simp)
  | cloneSender => exact absurd h (by simp)
  | dropSender => exact absurd h (by simp)
  | recv message => exact absurd h (by simp)
  | dropReceiver => exact absurd h (by simp)
  | abort => exact absurd h (by simp)

/-- The view of one kind. -/
def SupervisedAt (events : List (DatasourceEvent e)) (y : Datasource e) (k : SubscriptionKind) :
    Prop :=
  Supervised (outcomes k events) (y.source.restartCount k) (y.subscription k)
    (y.source.own.messages.count (died k))

theorem announced_not_died (k k' : SubscriptionKind) (ev : TransportEvent) :
    (announced k ev).count (died k') = 0 := by
  unfold announced
  split
  · exact List.count_eq_zero.mpr (by simp [died])
  · rfl

@[simp] theorem withMessages_restartCount (messages : List RpcSourceMessage) :
    (y.withMessages messages).restartCount k = y.source.restartCount k := by
  cases k <;> rfl

theorem connectOutcome_network (ev : TransportEvent) :
    connectOutcome k (.network k ev : DatasourceEvent e) =
      match ev with
      | .connect (.ok _) => some true
      | .connect (.error _) => some false
      | _ => none := by
  unfold connectOutcome
  cases ev with
  | connect answer => cases answer <;> simp
  | _ => rfl

/-- A transport that has ended, or has not connected, has no step but the connect. -/
theorem step_of_phase {c : Ws.Spawn} {t t' : Transport} {ev : TransportEvent}
    (hphase : t.phase = .connecting ∨ t.phase = .exited) (hgentle : Gentle ev)
    (hconnect : ∀ answer, ev = .connect answer → t.phase = .exited)
    (hstep : t.step c ev = some t') :
    (∃ message, ev = .recv message) ∧ t'.phase = t.phase ∧ t'.firstTx = t.firstTx ∧
      t'.senders = t.senders ∧ t'.receiver = t.receiver := by
  cases ev with
  | recv message =>
    unfold Transport.step at hstep
    dsimp only at hstep
    split_ifs at hstep
    obtain rfl := Option.some.inj hstep
    exact ⟨⟨message, rfl⟩, rfl, rfl, rfl, rfl⟩
  | connect answer =>
    have hexited := hconnect answer rfl
    exact absurd hstep (by simp [Transport.step, hexited])
  | send message => exact absurd hgentle id
  | cloneSender => exact absurd hgentle id
  | dropSender => exact absurd hgentle id
  | dropReceiver => exact absurd hgentle id
  | abort => exact absurd hgentle id
  | _ =>
    rcases hphase with hphase | hphase
    · exact absurd hstep (by simp [Transport.step, hphase])
    · exact absurd hstep (by simp [Transport.step, hphase])

/-- The transport of the subscription itself has made a step. -/
theorem supervised_network {outcomes : List Bool} {n reports : ℕ} {sub : Subscription}
    {t : Transport} {ev : TransportEvent} (hI : Supervised outcomes n sub reports)
    (hgentle : Gentle ev) (hstep : sub.transport.step env.spawn ev = some t) :
    Supervised (outcomes ++ (connectOutcome k (.network k ev : DatasourceEvent e)).toList) n
      ⟨taskAfter sub.task ev, t⟩ reports := by
  obtain ⟨task, transport⟩ := sub
  dsimp only at hstep
  rw [connectOutcome_network]
  cases task with
  | connecting =>
    obtain ⟨hfresh, houtcomes, hreports⟩ := hI
    by_cases hconnect : ∃ answer, ev = .connect answer
    · obtain ⟨answer, rfl⟩ := hconnect
      have hphase : transport.phase = .connecting := hfresh.phase
      simp only [Transport.step, hphase, Option.some.injEq] at hstep
      subst hstep
      cases answer with
      | ok connected =>
        refine ⟨⟨rfl, by simp [Transport.connect], hfresh.senders, hfresh.receiver⟩, ⟨[], ?_⟩,
          hreports⟩
        rw [houtcomes]
        rfl
      | error failure =>
        have hfirst : transport.firstTx = true := hfresh.firstTx
        refine ⟨?_, ?_, hreports⟩
        · simp only [Transport.connect, hfirst, if_true]
        · rw [houtcomes, List.replicate_succ']
          rfl
    · obtain ⟨⟨message, rfl⟩, hphase, hfirst, hsenders, hreceiver⟩ :=
        step_of_phase (Or.inl hfresh.phase) hgentle
          (fun answer hev => absurd ⟨answer, hev⟩ hconnect) hstep
      refine ⟨⟨?_, ?_, ?_, ?_⟩, ?_, hreports⟩
      · exact hfirst.trans hfresh.firstTx
      · exact hphase.trans hfresh.phase
      · exact hsenders ▸ hfresh.senders
      · exact hreceiver.trans hfresh.receiver
      · rw [houtcomes]
        exact List.append_nil _
  | receiving =>
    obtain ⟨hlive, ⟨more, houtcomes⟩, hreports⟩ := hI
    have htask : taskAfter .receiving ev = .receiving := by
      unfold taskAfter answered
      split
      · split <;> rfl
      · rfl
    simp only [htask]
    refine ⟨hlive.step hgentle hstep, ?_, hreports⟩
    rw [houtcomes, List.append_assoc]
    exact ⟨_, rfl⟩
  | ended =>
    obtain ⟨hexited, houtcomes, hreports⟩ := hI
    obtain ⟨⟨message, rfl⟩, hphase, -⟩ :=
      step_of_phase (Or.inr hexited) hgentle (fun _ _ => hexited) hstep
    refine ⟨hphase.trans hexited, ?_, hreports⟩
    rw [houtcomes]
    exact List.append_nil _
  | reported =>
    obtain ⟨hexited, houtcomes, hreports⟩ := hI
    obtain ⟨⟨message, rfl⟩, hphase, -⟩ :=
      step_of_phase (Or.inr hexited) hgentle (fun _ _ => hexited) hstep
    refine ⟨hphase.trans hexited, ?_, hreports⟩
    rw [houtcomes]
    exact List.append_nil _

/-! ## What the source does with a message -/

/-- A message handled leaves updates for the source, and counts the restart that it asks for. -/
theorem handle_eq_ok {node : SourceNode} {s s' : RpcSource e} {message : RpcSourceMessage}
    (hrunning : s.own.running = true) (h : s.handle node message = .ok s') :
    (∃ updates : List AccountUpdate, s'.own = { s.own with
        messages := s.own.messages ++ updates.map .updateReceived }) ∧
      (∀ k, message = died k → s'.restartCount k = s.restartCount k + 1 ∧
        s.restartCount k + 1 ≤ maxSubscriptionRestarts) ∧
      ∀ k, message ≠ died k → s'.restartCount k = s.restartCount k := by
  have hnil : s.own = { s.own with
      messages := s.own.messages ++ ([] : List AccountUpdate).map .updateReceived } := by simp
  cases message with
  | updateReceived update =>
    have hnot : ∀ k, RpcSourceMessage.updateReceived update ≠ died k := by simp [died]
    simp only [RpcSource.handle] at h
    split_ifs at h
    · split at h
      · obtain rfl := Except.ok.inj h
        exact ⟨⟨[], hnil⟩, fun k hk => absurd hk (hnot k), fun k _ => by cases k <;> rfl⟩
      · exact absurd h (by simp)
    · obtain rfl := Except.ok.inj h
      exact ⟨⟨[], hnil⟩, fun k hk => absurd hk (hnot k), fun k _ => by cases k <;> rfl⟩
  | clockReceived clock =>
    simp only [RpcSource.handle] at h
    split at h
    · obtain rfl := Except.ok.inj h
      exact ⟨⟨[], hnil⟩, fun k hk => absurd hk (by simp [died]), fun k _ => by cases k <;> rfl⟩
    · exact absurd h (by simp)
  | reconnected =>
    obtain rfl := Except.ok.inj h
    refine ⟨?_, fun k hk => absurd hk (by simp [died]), fun k _ => by cases k <;> rfl⟩
    unfold SourceNode.performBackfill
    split
    · exact ⟨_, node.sendBackfill_messages hrunning _⟩
    · exact ⟨[], hnil⟩
  | subscriptionDied which =>
    simp only [RpcSource.handle] at h
    split_ifs at h with hprogram hover hclock hover
    · obtain rfl := Except.ok.inj h
      subst hprogram
      refine ⟨⟨[], hnil⟩, fun k hk => ?_, fun k hk => ?_⟩
      · cases k with
        | program => exact ⟨rfl, Nat.not_lt.mp hover⟩
        | clock => exact absurd hk (by decide)
      · cases k with
        | program => exact absurd rfl hk
        | clock => rfl
    · obtain rfl := Except.ok.inj h
      subst hclock
      refine ⟨⟨[], hnil⟩, fun k hk => ?_, fun k hk => ?_⟩
      · cases k with
        | program => exact absurd hk (by decide)
        | clock => exact ⟨rfl, Nat.not_lt.mp hover⟩
      · cases k with
        | program => rfl
        | clock => exact absurd rfl hk
    · obtain rfl := Except.ok.inj h
      refine ⟨⟨[], hnil⟩, fun k hk => ?_, fun k _ => rfl⟩
      have hwhich : which = k.which := RpcSourceMessage.subscriptionDied.inj hk
      cases k with
      | program => exact absurd hwhich hprogram
      | clock => exact absurd hwhich hclock

/-- The source gives up a kind of subscription when it was reported once too often. -/
theorem handle_eq_error {node : SourceNode} {s : RpcSource e} {message : RpcSourceMessage}
    {k : SubscriptionKind} (h : s.handle node message = .error (.maxRestarts k.which)) :
    message = died k ∧ maxSubscriptionRestarts < s.restartCount k + 1 := by
  cases message with
  | updateReceived update =>
    simp only [RpcSource.handle] at h
    split_ifs at h
    split at h
    · exact absurd h (by simp)
    · exact absurd h (by simp)
  | clockReceived clock =>
    simp only [RpcSource.handle] at h
    split at h
    · exact absurd h (by simp)
    · exact absurd h (by simp)
  | reconnected => exact absurd h (by simp [RpcSource.handle])
  | subscriptionDied which =>
    simp only [RpcSource.handle] at h
    split_ifs at h with hprogram hover hclock hover
    · have hwhich : which = k.which := SourceError.maxRestarts.inj (Except.error.inj h)
      refine ⟨congrArg _ hwhich, ?_⟩
      obtain rfl : SubscriptionKind.program = k :=
        SubscriptionKind.which_injective (hprogram.symm.trans hwhich)
      exact hover
    · have hwhich : which = k.which := SourceError.maxRestarts.inj (Except.error.inj h)
      refine ⟨congrArg _ hwhich, ?_⟩
      obtain rfl : SubscriptionKind.clock = k :=
        SubscriptionKind.which_injective (hclock.symm.trans hwhich)
      exact hover

/-! ## Supervision -/

/-- Connections that were announced to the source. -/
def announcements : DatasourceEvent e → List RpcSourceMessage
  | .network k ev => announced k ev
  | _ => []

/-- Connections that the source has handled. -/
def answeredConnections : DatasourceEvent e → List RpcSourceMessage
  | .handle .reconnected _ => [.reconnected]
  | _ => []

/-- A source that has not stopped. -/
structure Running (events : List (DatasourceEvent e)) (y : Datasource e) : Prop where
  running : y.source.own.running = true
  bounded : ∀ k, y.source.restartCount k ≤ maxSubscriptionRestarts
  supervised : ∀ k, SupervisedAt events y k

/-- What a source and its subscriptions have behind them. -/
structure Supervision (events : List (DatasourceEvent e)) (y : Datasource e) : Prop where
  running : y.stopped = none → Running events y
  stopped : ∀ k, y.stopped = some (.maxRestarts k.which) →
    outcomes k events = List.replicate (maxSubscriptionRestarts + 1) false
  announced : (events.flatMap announcements).length =
    (events.flatMap answeredConnections).length + y.source.own.messages.count .reconnected

variable {events : List (DatasourceEvent e)} {ev : DatasourceEvent e}

theorem outcomes_append (k : SubscriptionKind) :
    outcomes k (events ++ [ev]) = outcomes k events ++ (connectOutcome k ev).toList := by
  unfold outcomes
  rw [List.filterMap_append]
  cases hev : connectOutcome k ev <;> simp [hev]

/-- Nothing has changed for the kind. -/
theorem SupervisedAt.congr (h : SupervisedAt events y k) (houtcome : connectOutcome k ev = none)
    (hcount : y'.source.restartCount k = y.source.restartCount k)
    (hsub : y'.subscription k = y.subscription k)
    (hreports : y'.source.own.messages.count (died k) = y.source.own.messages.count (died k)) :
    SupervisedAt (events ++ [ev]) y' k := by
  unfold SupervisedAt at h ⊢
  rw [outcomes_append, houtcome, hcount, hsub, hreports]
  simpa using h

theorem running_network {k : SubscriptionKind} {tev : TransportEvent} (hI : Running events y)
    (h : y.network env k tev = some y') : Running (events ++ [.network k tev]) y' := by
  obtain ⟨hgentle, hsource, -, t, ht, hsub⟩ := network_eq_some hI.running h
  have hcount : ∀ k', y'.source.restartCount k' = y.source.restartCount k' := by
    intro k'
    rw [hsource, withMessages_restartCount]
  have hreports : ∀ k', y'.source.own.messages.count (died k') =
      y.source.own.messages.count (died k') := by
    intro k'
    rw [hsource, withMessages, List.count_append, announced_not_died, Nat.add_zero]
  refine ⟨?_, fun k' => ?_, fun k' => ?_⟩
  · rw [hsource]
    exact hI.running
  · rw [hcount]
    exact hI.bounded k'
  · by_cases hk : k' = k
    · subst hk
      have hview := hI.supervised k'
      unfold SupervisedAt at hview ⊢
      rw [outcomes_append, hcount, hreports, hsub, Function.update_self]
      exact supervised_network hview hgentle ht
    · refine (hI.supervised k').congr ?_ (hcount k') ?_ (hreports k')
      · unfold connectOutcome
        cases tev with
        | connect answer => cases answer <;> simp [Ne.symm hk]
        | _ => rfl
      · rw [hsub]
        exact Function.update_of_ne hk _ _

/-- A notification is neither a report nor a connection. -/
def Notifies : RpcSourceMessage → Prop
  | .updateReceived _ => True
  | .clockReceived _ => True
  | _ => False

theorem count_of_notifies {messages : List RpcSourceMessage} (h : ∀ m ∈ messages, Notifies m)
    {message : RpcSourceMessage} (hnot : ¬ Notifies message) : messages.count message = 0 :=
  List.count_eq_zero.mpr fun hmem => hnot (h message hmem)

theorem notification_notifies {message : Message} {notification : RpcSourceMessage}
    (h : env.notification k message = some notification) : Notifies notification := by
  unfold SubscriptionEnv.notification at h
  split at h
  · obtain ⟨u, -, rfl⟩ := Option.map_eq_some_iff.mp h
    trivial
  · obtain ⟨u, -, rfl⟩ := Option.map_eq_some_iff.mp h
    trivial
  · exact absurd h (by simp)

theorem receive_eq_some {message : Message} (hrunning : y.source.own.running = true)
    (h : y.receive env k message = some y') : ∃ messages t, (∀ m ∈ messages, Notifies m) ∧
      (y.subscription k).task = .receiving ∧
      (y.subscription k).transport.step env.spawn (.recv message) = some t ∧
      y' = { y.update k { y.subscription k with transport := t } with
        source := y.withMessages messages } := by
  unfold receive at h
  dsimp only at h
  split_ifs at h with htask
  simp only [Option.bind_eq_bind, Option.bind_eq_some_iff] at h
  obtain ⟨t, ht, h⟩ := h
  split at h
  · obtain rfl := Option.some.inj h
    refine ⟨[], t, by simp, htask, ht, ?_⟩
    rw [withMessages_nil]
    rfl
  · rename_i notification hnotification
    rw [Mailbox.send_running hrunning] at h
    obtain rfl := Option.some.inj h
    refine ⟨[notification], t, fun m hm => ?_, htask, ht, rfl⟩
    rw [List.mem_singleton.mp hm]
    exact notification_notifies hnotification

/-- The loop only receives while its transport is live. -/
theorem running_receive {message : Message} (hI : Running events y)
    (h : y.receive env k message = some y') : Running (events ++ [.receive k message]) y' := by
  obtain ⟨messages, t, hnotifies, htask, ht, rfl⟩ := receive_eq_some hI.running h
  have hreports : ∀ k', (y.withMessages messages).own.messages.count (died k') =
      y.source.own.messages.count (died k') := by
    intro k'
    have hnot : ¬ Notifies (died k') := id
    rw [withMessages, List.count_append, count_of_notifies hnotifies hnot, Nat.add_zero]
  refine ⟨hI.running, fun k' => ?_, fun k' => ?_⟩
  · rw [withMessages_restartCount]
    exact hI.bounded k'
  · by_cases hk : k' = k
    · subst hk
      have hview := hI.supervised k'
      unfold SupervisedAt Supervised at hview ⊢
      rw [outcomes_append]
      simp only [update, Function.update_self, withMessages_restartCount]
      rw [hreports]
      rw [htask] at hview ⊢
      obtain ⟨hlive, ⟨more, houtcomes⟩, hzero⟩ := hview
      have hgentle : Gentle (.recv message) := trivial
      refine ⟨hlive.step hgentle ht, ⟨more, ?_⟩, hzero⟩
      rw [houtcomes]
      exact List.append_nil _
    · exact (hI.supervised k').congr rfl (withMessages_restartCount messages)
        (Function.update_of_ne hk _ _) (hreports k')

/-- A live transport does not end, so the loop does not run dry. -/
theorem running_finish {k : SubscriptionKind} (hI : Running events y)
    (h : y.finish k = some y') : False := by
  have hview := hI.supervised k
  unfold finish at h
  dsimp only at h
  split_ifs at h with hdry
  unfold SupervisedAt Supervised at hview
  rw [hdry.1] at hview
  exact hview.1.phase hdry.2.1

theorem count_died {k k' : SubscriptionKind} (hne : k' ≠ k) :
    [died k].count (died k') = 0 := by
  refine List.count_eq_zero.mpr fun hmem => hne ?_
  exact SubscriptionKind.which_injective
    (RpcSourceMessage.subscriptionDied.inj (List.mem_singleton.mp hmem))

theorem watch_eq_some (hrunning : y.source.own.running = true) (h : y.watch k = some y') :
    (y.subscription k).task = .ended ∧
      y' = { y.update k { y.subscription k with task := .reported } with
        source := y.withMessages [died k] } := by
  unfold watch at h
  dsimp only at h
  split_ifs at h with htask
  obtain rfl := Option.some.inj h
  refine ⟨htask, ?_⟩
  unfold tell withMessages
  rw [Mailbox.send_running (by exact hrunning)]
  rfl

/-- The report of a subscription that has ended. -/
theorem running_watch (hI : Running events y) (h : y.watch k = some y') :
    Running (events ++ [.watch k]) y' := by
  obtain ⟨htask, rfl⟩ := watch_eq_some hI.running h
  have hview := hI.supervised k
  refine ⟨hI.running, fun k' => ?_, fun k' => ?_⟩
  · rw [withMessages_restartCount]
    exact hI.bounded k'
  · by_cases hk : k' = k
    · subst hk
      unfold SupervisedAt Supervised at hview ⊢
      rw [htask] at hview
      obtain ⟨hexited, houtcomes, hzero⟩ := hview
      rw [outcomes_append, withMessages_restartCount]
      simp only [update, Function.update_self]
      refine ⟨hexited, ?_, ?_⟩
      · rw [houtcomes]
        exact List.append_nil _
      · rw [withMessages, List.count_append, hzero, List.count_singleton_self]
    · refine (hI.supervised k').congr rfl (withMessages_restartCount _)
        (Function.update_of_ne hk _ _) ?_
      rw [withMessages, List.count_append, count_died hk, Nat.add_zero]

/-- The message at the head of the mailbox. -/
theorem handle_head {message : RpcSourceMessage} {node : SourceNode}
    (h : y.handle message node = some y') : ∃ rest, y.source.own.messages = message :: rest ∧
      ((∃ s, RpcSource.handle node { y.source with own := { y.source.own with messages := rest } }
          message = .ok s ∧ y' = { y with source := s, subscription := y.respawn message }) ∨
        ∃ error, RpcSource.handle node
          { y.source with own := { y.source.own with messages := rest } } message = .error error ∧
          y' = { y with
            source :=
              { y.source with own := { y.source.own with messages := rest, running := false } }
            stopped := some error }) := by
  unfold handle at h
  split at h
  · exact absurd h (by simp)
  · rename_i head rest hmessages
    split_ifs at h with hhead
    subst hhead
    refine ⟨rest, hmessages, ?_⟩
    dsimp only at h
    split at h
    · rename_i s hs
      exact Or.inl ⟨s, hs, (Option.some.inj h).symm⟩
    · rename_i error herror
      exact Or.inr ⟨error, herror, (Option.some.inj h).symm⟩

/-- Only a report restarts a subscription, which was then reported once and has failed to
connect. -/
theorem supervised_report {message : RpcSourceMessage} {rest : List RpcSourceMessage}
    (hview : SupervisedAt events y k) (hmessages : y.source.own.messages = message :: rest)
    (hreport : message = died k) :
    outcomes k events = List.replicate (y.source.restartCount k + 1) false ∧
      rest.count (died k) = 0 := by
  unfold SupervisedAt Supervised at hview
  rw [hmessages, hreport, List.count_cons_self] at hview
  split at hview
  · exact absurd hview.2.2 (Nat.succ_ne_zero _)
  · exact absurd hview.2.2 (Nat.succ_ne_zero _)
  · exact absurd hview.2.2 (Nat.succ_ne_zero _)
  · exact ⟨hview.2.1, Nat.succ.inj hview.2.2⟩

theorem running_handle {message : RpcSourceMessage} {node : SourceNode} (hI : Running events y)
    (h : y.handle message node = some y') (hstopped : y'.stopped = none) :
    Running (events ++ [.handle message node]) y' := by
  obtain ⟨rest, hmessages, ⟨s, hs, rfl⟩ | ⟨error, -, rfl⟩⟩ := handle_head h
  · obtain ⟨⟨updates, hown⟩, hrestart, hkeep⟩ := handle_eq_ok (by exact hI.running) hs
    have hcount : ∀ k, s.own.messages.count (died k) = rest.count (died k) := by
      intro k
      rw [hown, List.count_append, Nat.add_eq_left, List.count_eq_zero]
      simp [died]
    refine ⟨?_, fun k => ?_, fun k => ?_⟩
    · dsimp only
      rw [hown]
      exact hI.running
    · by_cases hreport : message = died k
      · obtain ⟨heq, hle⟩ := hrestart k hreport
        exact heq.le.trans hle
      · exact (hkeep k hreport).le.trans (hI.bounded k)
    · by_cases hreport : message = died k
      · obtain ⟨houtcomes, hzero⟩ := supervised_report (hI.supervised k) hmessages hreport
        have hsub : y.respawn message k = .fresh := if_pos hreport
        unfold SupervisedAt Supervised
        dsimp only
        rw [outcomes_append, hcount, hzero, (hrestart k hreport).1, hsub]
        refine ⟨⟨rfl, rfl, Nat.two_pos, rfl⟩, ?_, rfl⟩
        rw [houtcomes]
        exact List.append_nil _
      · refine (hI.supervised k).congr rfl (hkeep k hreport) (if_neg hreport) ?_
        rw [hmessages, hcount, List.count_cons_of_ne hreport]
  · exact absurd hstopped (by simp)

/-- The step lemma of a source that goes on. -/
theorem step_running (hI : Running events y) (h : y.step env ev = some y')
    (hstopped : y'.stopped = none) : Running (events ++ [ev]) y' := by
  unfold step at h
  split_ifs at h
  cases ev with
  | network k tev => exact running_network hI h
  | receive k message => exact running_receive hI h
  | finish k => exact absurd (running_finish hI h) id
  | watch k => exact running_watch hI h
  | handle message node => exact running_handle hI h hstopped
  | others cache staging =>
    obtain rfl := Option.some.inj h
    refine ⟨hI.running, fun k => ?_, fun k => ?_⟩
    · have hbounded := hI.bounded k
      cases k <;> exact hbounded
    · exact (hI.supervised k).congr rfl (by cases k <;> rfl) rfl rfl

theorem announced_reconnected (k : SubscriptionKind) (ev : TransportEvent) :
    (announced k ev).count .reconnected = (announced k ev).length := by
  unfold announced
  split <;> rfl

/-- Every connection that is announced waits in the mailbox until it is handled. -/
theorem step_announced (hI : Running events y) (h : y.step env ev = some y') :
    (announcements ev).length + y.source.own.messages.count .reconnected =
      (answeredConnections ev).length + y'.source.own.messages.count .reconnected := by
  unfold step at h
  split_ifs at h
  cases ev with
  | network k tev =>
    obtain ⟨-, hsource, -, -⟩ := network_eq_some hI.running h
    rw [hsource, withMessages, List.count_append, announced_reconnected]
    simp only [announcements, answeredConnections, List.length_nil]
    omega
  | receive k message =>
    obtain ⟨messages, t, hnotifies, -, -, rfl⟩ := receive_eq_some hI.running h
    have hnot : ¬ Notifies .reconnected := id
    dsimp only
    rw [withMessages, List.count_append, count_of_notifies hnotifies hnot]
    rfl
  | finish k => exact absurd (running_finish hI h) id
  | watch k =>
    obtain ⟨-, rfl⟩ := watch_eq_some hI.running h
    dsimp only
    rw [withMessages, List.count_append]
    rfl
  | handle message node =>
    obtain ⟨rest, hmessages, ⟨s, hs, rfl⟩ | ⟨error, -, rfl⟩⟩ := handle_head h
    · obtain ⟨⟨updates, hown⟩, -⟩ := handle_eq_ok (by exact hI.running) hs
      have hnone : (updates.map RpcSourceMessage.updateReceived).count .reconnected = 0 :=
        List.count_eq_zero.mpr (by simp)
      dsimp only
      rw [hown, hmessages, List.count_append, hnone]
      cases message <;> simp [announcements, answeredConnections]
      omega
    · dsimp only
      rw [hmessages]
      cases message <;> simp [announcements, answeredConnections]
      omega
  | others cache staging =>
    obtain rfl := Option.some.inj h
    rfl

/-- The source stops over a message that it handles. -/
theorem step_stopped {error : SourceError} (hI : Running events y) (hgoing : y.stopped = none)
    (h : y.step env ev = some y') (hstopped : y'.stopped = some error) :
    ∃ message node rest, ev = .handle message node ∧ y.source.own.messages = message :: rest ∧
      RpcSource.handle node { y.source with own := { y.source.own with messages := rest } }
        message = .error error := by
  have hkept : y'.stopped ≠ y.stopped := by
    rw [hstopped, hgoing]
    exact Option.some_ne_none error
  unfold step at h
  rw [if_pos hgoing] at h
  cases ev with
  | network k tev => exact absurd (network_eq_some hI.running h).stopped hkept
  | receive k message =>
    obtain ⟨messages, t, -, -, -, rfl⟩ := receive_eq_some hI.running h
    exact absurd rfl hkept
  | finish k => exact absurd (running_finish hI h) id
  | watch k =>
    obtain ⟨-, rfl⟩ := watch_eq_some hI.running h
    exact absurd rfl hkept
  | handle message node =>
    obtain ⟨rest, hmessages, ⟨s, -, rfl⟩ | ⟨error', herror, rfl⟩⟩ := handle_head h
    · exact absurd rfl hkept
    · obtain rfl := Option.some.inj hstopped
      exact ⟨message, node, rest, rfl, hmessages, herror⟩
  | others cache staging =>
    obtain rfl := Option.some.inj h
    exact absurd rfl hkept

/-- The step lemma. -/
theorem step_supervision (hI : Supervision events y) (h : y.step env ev = some y') :
    Supervision (events ++ [ev]) y' := by
  have hgoing : y.stopped = none := by
    unfold step at h
    split_ifs at h with hgoing
    exact hgoing
  have hrunning := hI.running hgoing
  refine ⟨step_running hrunning h, fun k hstopped => ?_, ?_⟩
  · obtain ⟨message, node, rest, rfl, hmessages, herror⟩ :=
      step_stopped hrunning hgoing h hstopped
    obtain ⟨hreport, hover⟩ := handle_eq_error herror
    have hcount : y.source.restartCount k = maxSubscriptionRestarts := by
      have hle := hrunning.bounded k
      have hlt : maxSubscriptionRestarts < y.source.restartCount k + 1 := by
        cases k <;> exact hover
      omega
    rw [outcomes_append, (supervised_report (hrunning.supervised k) hmessages hreport).1, hcount]
    exact List.append_nil _
  · have hannounced := step_announced hrunning h
    have hbefore := hI.announced
    simp only [List.flatMap_append, List.flatMap_singleton, List.length_append]
    omega

/-- As long as a source runs, it has restarted each subscription at most three times, each time
after a first connect that failed. Once a subscription has connected, it receives for good and
is not reported, however often the connection is lost. The source gives up a subscription
only if the first connect and all three repetitions have failed. Every connection for the
threads is announced once, and handled once or waits in the mailbox. -/
theorem subscriptions_supervised {cache : AccountCache e} {staging : Mailbox StagingMessage}
    (h : Run (fun y ev y' => y.step env ev = some y') (start cache staging) events y) :
    (y.stopped = none → ∀ k, y.source.restartCount k ≤ maxSubscriptionRestarts ∧
      (true ∈ outcomes k events → (y.subscription k).task = .receiving ∧
        died k ∉ y.source.own.messages ∧
        List.replicate (y.source.restartCount k) false ++ [true] <+: outcomes k events) ∧
      (true ∉ outcomes k events → y.source.restartCount k ≤ (outcomes k events).length ∧
        (outcomes k events).length ≤ y.source.restartCount k + 1)) ∧
    (∀ k, y.stopped = some (.maxRestarts k.which) →
      outcomes k events = List.replicate (maxSubscriptionRestarts + 1) false) ∧
    (events.flatMap announcements).length =
      (events.flatMap answeredConnections).length +
        y.source.own.messages.count .reconnected := by
  have hfresh : Running [] (start cache staging) := by
    refine ⟨rfl, fun k => ?_, fun k => ?_⟩
    · cases k <;> exact Nat.zero_le _
    · have hview : Fresh Transport.spawn := ⟨rfl, rfl, Nat.two_pos, rfl⟩
      cases k <;> exact ⟨hview, rfl, rfl⟩
  have hstart : Supervision [] (start cache staging) :=
    ⟨fun _ => hfresh, fun k hstopped => absurd hstopped (by simp [start]), rfl⟩
  have hhistory := h.history (I := Supervision) (f := fun ev => [ev])
    (fun _ _ _ _ hI hstep => step_supervision hI hstep) hstart
  rw [List.flatMap_singleton', List.nil_append] at hhistory
  refine ⟨fun hgoing k => ?_, hhistory.stopped, hhistory.announced⟩
  obtain ⟨-, hbounded, hsupervised⟩ := hhistory.running hgoing
  have hview := hsupervised k
  refine ⟨hbounded k, ?_⟩
  have hrefused : ∀ {n}, outcomes k events = List.replicate n false →
      y.source.restartCount k ≤ n → n ≤ y.source.restartCount k + 1 → true ∉ outcomes k events ∧
        y.source.restartCount k ≤ (outcomes k events).length ∧
        (outcomes k events).length ≤ y.source.restartCount k + 1 := by
    intro n houtcomes hlow hhigh
    rw [houtcomes, List.length_replicate]
    exact ⟨fun htrue => absurd (List.eq_of_mem_replicate htrue) (by simp), hlow, hhigh⟩
  unfold SupervisedAt Supervised at hview
  split at hview
  · obtain ⟨-, houtcomes, -⟩ := hview
    obtain ⟨hnone, hlength⟩ := hrefused houtcomes le_rfl (Nat.le_succ _)
    exact ⟨fun htrue => absurd htrue hnone, fun _ => hlength⟩
  · rename_i htask
    obtain ⟨-, ⟨more, houtcomes⟩, hzero⟩ := hview
    refine ⟨fun _ => ⟨htask, List.count_eq_zero.mp hzero, more, ?_⟩, fun hnone => ?_⟩
    · rw [houtcomes, List.append_assoc]
      rfl
    · rw [houtcomes] at hnone
      exact absurd (List.mem_append_right _ List.mem_cons_self) hnone
  · obtain ⟨-, houtcomes, -⟩ := hview
    obtain ⟨hnone, hlength⟩ := hrefused houtcomes (Nat.le_succ _) le_rfl
    exact ⟨fun htrue => absurd htrue hnone, fun _ => hlength⟩
  · obtain ⟨-, houtcomes, -⟩ := hview
    obtain ⟨hnone, hlength⟩ := hrefused houtcomes (Nat.le_succ _) le_rfl
    exact ⟨fun htrue => absurd htrue hnone, fun _ => hlength⟩

/-! ## A refused connect and a lost connection -/

def soleEnv : SubscriptionEnv where
  spawn := Transport.soleSpawn
  subscribeMsg := SubscriptionKind.which
  parseProgramNotification := fun _ => none
  parseClockNotification := fun _ => none

/-- The first connect for the threads is refused, the second one is not. Its connection is lost
after the subscription, and the transport connects again. -/
def refusedOnce : List (DatasourceEvent AccountCache.threadEnv) :=
  [.network .program (.connect (.error (.other "refused"))), .watch .program,
    .handle (died .program) RpcSource.sampleNode, .network .program (.connect (.ok ())),
    .network .program (.onConnect [.text "program"] (.ok ())),
    .handle .reconnected RpcSource.sampleNode, .network .program (.write (.ok ())),
    .network .program (.inbound none), .network .program .wake,
    .network .program (.connect (.ok ())),
    .network .program (.onConnect [.text "program"] (.ok ()))]

theorem subscriptions_supervised_sample :
    ∃ y : Datasource AccountCache.threadEnv, y.stopped = none ∧
      outcomes .program refusedOnce = [false, true, true] ∧
      y.source.own.messages.count .reconnected = 1 ∧
      (y.stopped = none → ∀ k, y.source.restartCount k ≤ maxSubscriptionRestarts ∧
        (true ∈ outcomes k refusedOnce → (y.subscription k).task = .receiving ∧
          died k ∉ y.source.own.messages ∧
          List.replicate (y.source.restartCount k) false ++ [true] <+: outcomes k refusedOnce) ∧
        (true ∉ outcomes k refusedOnce →
          y.source.restartCount k ≤ (outcomes k refusedOnce).length ∧
          (outcomes k refusedOnce).length ≤ y.source.restartCount k + 1)) ∧
      (∀ k, y.stopped = some (.maxRestarts k.which) →
        outcomes k refusedOnce = List.replicate (maxSubscriptionRestarts + 1) false) ∧
      (refusedOnce.flatMap announcements).length =
        (refusedOnce.flatMap answeredConnections).length +
          y.source.own.messages.count .reconnected := by
  have hrun : Run (Guarded (fun y ev y' => y.step soleEnv ev = some y') fun _ _ => True)
      (start (fun _ => none) ⟨true, []⟩) refusedOnce _ :=
    Run.of_forall (fun _ _ => trivial) rfl
  exact ⟨_, rfl, rfl, rfl, subscriptions_supervised (hrun.mono fun _ _ _ hstep => hstep.2)⟩

end Datasource

end Antegen.Client
