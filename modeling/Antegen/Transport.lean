import Antegen.Transition

/-!
# The websocket transport

`run` connects, lets `on_connect` send, and moves messages until the connection ends. Then it
waits and connects again. Only the failure of the first connect ends it. What the server and
the network do is an event, and so is what the owners of the channels do.

The outgoing channel is polled first, so a frame is only read when nothing waits to be sent.
The task keeps a sender of its own. The delays of the backoff are a parameter. Of the events
that do not fit into their channel, which drops them, a record is kept all the same.
-/
namespace Antegen.Ws

open Transition

structure CloseFrame where
  code : ℕ
  reason : String
  deriving DecidableEq, Repr

inductive Message
  | text (s : String)
  | binary (b : List UInt8)
  | close (frame : Option CloseFrame)
  deriving DecidableEq, Repr

/-- Why a request to the socket has failed. -/
inductive SocketError
  | connectionClosed
  | other (text : String)
  deriving DecidableEq, Repr

inductive DisconnectReason
  | serverClose
  | transport (error : SocketError)
  | shutdown
  deriving DecidableEq, Repr

inductive Event
  | connected
  | disconnected (reason : DisconnectReason)
  | reconnecting (attempt nextDelay : ℕ)
  deriving DecidableEq, Repr

/-- A frame from the server, for a ping with whether the pong can be sent. -/
inductive Frame
  | text (s : String)
  | binary (b : List UInt8)
  | ping (pong : Except SocketError Unit)
  | pong
  | close (frame : Option CloseFrame)
  | frame

/-- What the transport was built with, besides the address. -/
structure Spawn where
  keepalive : Option ℕ
  delay : ℕ → ℕ
  capacity : ℕ

inductive Phase
  | connecting
  | connected
  | pumping
  | sleeping (delay : ℕ)
  | exited
  deriving DecidableEq, Repr

/-- The task and its channels. The events and the connections, each with the messages that it
has carried, are recorded from the last one back. -/
structure Transport where
  phase : Phase
  firstTx : Bool
  attempt : ℕ
  senders : ℕ
  outgoing : List Message
  receiver : Bool
  incoming : List Message
  emitted : List Event
  written : List (List Message)

inductive TransportEvent
  | connect (answer : Except SocketError Unit)
  | onConnect (sent : List Message) (answer : Except Unit Unit)
  | write (answer : Except SocketError Unit)
  | inbound (item : Option (Except SocketError Frame))
  | tick (answer : Except SocketError Unit)
  | wake
  | send (message : Message)
  | cloneSender
  | dropSender
  | recv (message : Message)
  | dropReceiver
  | abort

/-- What a frame has for the receiver. -/
def Frame.message? : Frame → Option Message
  | .text t => some (.text t)
  | .binary b => some (.binary b)
  | .close f => some (.close f)
  | _ => none

/-- A message that the connection goes on after. -/
def Frame.data? : Frame → Option Message
  | .text t => some (.text t)
  | .binary b => some (.binary b)
  | _ => none

def TransportEvent.delivered : TransportEvent → List Message
  | .inbound (some (.ok f)) => f.message?.toList
  | _ => []

def TransportEvent.received : TransportEvent → List Message
  | .recv message => [message]
  | _ => []

namespace Transport

/-- Behind `spawn` the handle and the task each have a sender. -/
def spawn : Transport where
  phase := .connecting
  firstTx := true
  attempt := 0
  senders := 2
  outgoing := []
  receiver := true
  incoming := []
  emitted := []
  written := []

variable (c : Spawn) (s : Transport)

def emit (event : Event) : Transport := { s with emitted := event :: s.emitted }

/-- The delay before the next connect. -/
def retry : Transport :=
  { s.emit (.reconnecting (s.attempt + 1) (c.delay (s.attempt + 1))) with
    attempt := s.attempt + 1
    phase := .sleeping (c.delay (s.attempt + 1)) }

/-- What follows when `pump` has returned. -/
def disconnect (reason : DisconnectReason) : Transport :=
  match reason with
  | .shutdown => { s.emit (.disconnected .shutdown) with phase := .exited }
  | .serverClose => (s.emit (.disconnected .serverClose)).retry c
  | .transport e => (s.emit (.disconnected (.transport e))).retry c

def connect : Except SocketError Unit → Transport
  | .error e =>
    if s.firstTx then { s with firstTx := false, phase := .exited }
    else (s.emit (.disconnected (.transport e))).retry c
  | .ok () =>
    { s.emit .connected with
      firstTx := false
      attempt := 0
      phase := .connected
      written := [] :: s.written }

/-- `on_connect` waits for room in the outgoing channel, which nobody reads meanwhile. -/
def onConnect (sent : List Message) (answer : Except Unit Unit) : Option Transport :=
  if s.outgoing.length + sent.length ≤ c.capacity then
    let s := { s with outgoing := s.outgoing ++ sent }
    match answer with
    | .ok () => some { s with phase := .pumping }
    | .error () => some { s.emit (.disconnected .shutdown) with phase := .exited }
  else none

/-- The message is taken from the channel before it is sent. -/
def write (answer : Except SocketError Unit) : Option Transport :=
  match s.outgoing with
  | message :: rest =>
    let s := { s with outgoing := rest }
    match answer with
    | .ok () => some { s with written := s.written.modifyHead (· ++ [message]) }
    | .error e => some (s.disconnect c (.transport e))
  | [] => if s.senders = 0 then some (s.disconnect c .shutdown) else none

/-- A message for the receiver waits for room. -/
def deliver (message : Message) : Option Transport :=
  if s.receiver = true then
    if s.incoming.length < c.capacity then
      some { s with incoming := s.incoming ++ [message] }
    else none
  else some (s.disconnect c .shutdown)

def handleInbound : Frame → Option Transport
  | .text t => s.deliver c (.text t)
  | .binary b => s.deliver c (.binary b)
  | .ping (.error e) => some (s.disconnect c (.transport e))
  | .ping (.ok ()) => some s
  | .pong => some s
  | .close f =>
    if s.receiver = true then
      (s.deliver c (.close f)).map fun s => s.disconnect c .serverClose
    else some (s.disconnect c .serverClose)
  | .frame => some s

def inbound : Option (Except SocketError Frame) → Option Transport
  | none => some (s.disconnect c (.transport .connectionClosed))
  | some (.error e) => some (s.disconnect c (.transport e))
  | some (.ok f) => s.handleInbound c f

def tick : Except SocketError Unit → Transport
  | .ok () => s
  | .error e => s.disconnect c (.transport e)

/-- The outgoing channel has nothing for `pump`. -/
def Idle : Prop := s.outgoing = [] ∧ 0 < s.senders

instance : Decidable s.Idle := inferInstanceAs (Decidable (_ ∧ _))

def step (ev : TransportEvent) : Option Transport :=
  match ev, s.phase with
  | .connect answer, .connecting => some (s.connect c answer)
  | .onConnect sent answer, .connected => s.onConnect c sent answer
  | .write answer, .pumping => s.write c answer
  | .inbound item, .pumping => if s.Idle then s.inbound c item else none
  | .tick answer, .pumping =>
    if s.Idle ∧ c.keepalive.isSome = true then some (s.tick c answer) else none
  | .wake, .sleeping _ => some { s with phase := .connecting }
  | .send message, phase =>
    if 1 < s.senders ∧ phase ≠ .exited ∧ s.outgoing.length < c.capacity then
      some { s with outgoing := s.outgoing ++ [message] }
    else none
  | .cloneSender, _ => if 1 < s.senders then some { s with senders := s.senders + 1 } else none
  | .dropSender, _ => if 1 < s.senders then some { s with senders := s.senders - 1 } else none
  | .recv message, _ =>
    if s.receiver = true ∧ s.incoming.head? = some message then
      some { s with incoming := s.incoming.tail }
    else none
  | .dropReceiver, _ => some { s with receiver := false, incoming := [] }
  | .abort, _ => some { s with phase := .exited }
  | _, _ => none

/-! ## Incoming messages -/

variable {c s}

@[simp] theorem disconnect_incoming (reason : DisconnectReason) :
    (s.disconnect c reason).incoming = s.incoming := by
  cases reason <;> rfl

@[simp] theorem disconnect_receiver (reason : DisconnectReason) :
    (s.disconnect c reason).receiver = s.receiver := by
  cases reason <;> rfl

theorem connect_incoming (answer : Except SocketError Unit) :
    (s.connect c answer).incoming = s.incoming ∧ (s.connect c answer).receiver = s.receiver := by
  cases answer with
  | error e =>
    unfold connect
    split_ifs
    · exact ⟨rfl, rfl⟩
    · exact ⟨rfl, rfl⟩
  | ok connected => exact ⟨rfl, rfl⟩

/-- The incoming channel takes the message of an event and gives one to the receiver. -/
structure Passes (c : Spawn) (ev : TransportEvent) (s s' : Transport) : Prop where
  receiver : s.receiver = true
  queue : s.incoming ++ ev.delivered = ev.received ++ s'.incoming
  bounded : s.incoming.length ≤ c.capacity → s'.incoming.length ≤ c.capacity

theorem passes_of_same {ev : TransportEvent} {s' : Transport} (hreceiver : s'.receiver = true)
    (hsame : s'.receiver = s.receiver) (hincoming : s'.incoming = s.incoming)
    (hdelivered : ev.delivered = []) (hreceived : ev.received = []) : Passes c ev s s' := by
  refine ⟨hsame.symm.trans hreceiver, ?_, fun hbound => hincoming ▸ hbound⟩
  rw [hdelivered, hreceived, hincoming, List.append_nil, List.nil_append]

theorem handleInbound_passes {f : Frame} {s' : Transport} (h : s.handleInbound c f = some s')
    (hreceiver : s'.receiver = true) : Passes c (.inbound (some (.ok f))) s s' := by
  have hdeliver : ∀ {message u}, s.deliver c message = some u → u.receiver = true →
      f.message? = some message → Passes c (.inbound (some (.ok f))) s u := by
    intro message u hu hkept hmessage
    unfold deliver at hu
    split_ifs at hu with hopen hroom
    · obtain rfl := Option.some.inj hu
      refine ⟨hopen, ?_, fun _ => ?_⟩
      · simp [TransportEvent.delivered, TransportEvent.received, hmessage]
      · simp only [List.length_append, List.length_singleton]
        omega
    · obtain rfl := Option.some.inj hu
      rw [disconnect_receiver] at hkept
      exact absurd hkept hopen
  cases f with
  | text t => exact hdeliver h hreceiver rfl
  | binary b => exact hdeliver h hreceiver rfl
  | ping pong =>
    cases pong with
    | ok sent =>
      obtain rfl := Option.some.inj h
      exact passes_of_same hreceiver rfl rfl rfl rfl
    | error e =>
      obtain rfl := Option.some.inj h
      exact passes_of_same hreceiver rfl rfl rfl rfl
  | pong =>
    obtain rfl := Option.some.inj h
    exact passes_of_same hreceiver rfl rfl rfl rfl
  | close frame =>
    simp only [handleInbound] at h
    split_ifs at h with hopen
    · obtain ⟨u, hu, rfl⟩ := Option.map_eq_some_iff.mp h
      rw [disconnect_receiver] at hreceiver
      obtain ⟨hs, hqueue, hbound⟩ := hdeliver hu hreceiver rfl
      exact ⟨hs, by rw [disconnect_incoming]; exact hqueue,
        by rw [disconnect_incoming]; exact hbound⟩
    · obtain rfl := Option.some.inj h
      rw [disconnect_receiver] at hreceiver
      exact absurd hreceiver hopen
  | frame =>
    obtain rfl := Option.some.inj h
    exact passes_of_same hreceiver rfl rfl rfl rfl

/-- The step lemma of the incoming channel. -/
theorem step_passes {ev : TransportEvent} {s' : Transport} (h : s.step c ev = some s')
    (hreceiver : s'.receiver = true) : Passes c ev s s' := by
  have hsame : s'.receiver = s.receiver → s'.incoming = s.incoming → ev.delivered = [] →
      ev.received = [] → Passes c ev s s' := passes_of_same hreceiver
  unfold step at h
  split at h
  · obtain rfl := Option.some.inj h
    exact hsame (connect_incoming _).2 (connect_incoming _).1 rfl rfl
  · unfold onConnect at h
    split_ifs at h
    split at h <;> obtain rfl := Option.some.inj h
    · exact hsame rfl rfl rfl rfl
    · exact hsame rfl rfl rfl rfl
  · unfold write at h
    split at h
    · split at h <;> obtain rfl := Option.some.inj h
      · exact hsame rfl rfl rfl rfl
      · exact hsame rfl rfl rfl rfl
    · split_ifs at h
      obtain rfl := Option.some.inj h
      exact hsame rfl rfl rfl rfl
  · split_ifs at h
    unfold inbound at h
    split at h
    · obtain rfl := Option.some.inj h
      exact hsame rfl rfl rfl rfl
    · obtain rfl := Option.some.inj h
      exact hsame rfl rfl rfl rfl
    · exact handleInbound_passes h hreceiver
  · split_ifs at h
    obtain rfl := Option.some.inj h
    unfold tick at hsame ⊢
    split
    · exact hsame rfl rfl rfl rfl
    · exact hsame rfl rfl rfl rfl
  · obtain rfl := Option.some.inj h
    exact hsame rfl rfl rfl rfl
  · split_ifs at h
    obtain rfl := Option.some.inj h
    exact hsame rfl rfl rfl rfl
  · split_ifs at h
    obtain rfl := Option.some.inj h
    exact hsame rfl rfl rfl rfl
  · split_ifs at h
    obtain rfl := Option.some.inj h
    exact hsame rfl rfl rfl rfl
  · split_ifs at h with hrecv
    obtain rfl := Option.some.inj h
    obtain ⟨rest, hrest⟩ := List.head?_eq_some_iff.mp hrecv.2
    refine ⟨hrecv.1, ?_, fun hbound => ?_⟩
    · simp [TransportEvent.delivered, TransportEvent.received, hrest]
    · rw [List.length_tail]
      omega
  · obtain rfl := Option.some.inj h
    exact absurd hreceiver (by simp)
  · obtain rfl := Option.some.inj h
    exact hsame rfl rfl rfl rfl
  · exact absurd h (by simp)

/-- What was delivered is what was received and what is left in the channel. -/
def InOrder (c : Spawn) (events : List TransportEvent) (s : Transport) : Prop :=
  s.receiver = true →
    events.flatMap TransportEvent.delivered =
        events.flatMap TransportEvent.received ++ s.incoming ∧
      s.incoming.length ≤ c.capacity

theorem step_inOrder {events : List TransportEvent} {ev : TransportEvent} {s' : Transport}
    (hI : InOrder c events s) (h : s.step c ev = some s') : InOrder c (events ++ [ev]) s' := by
  intro hkept
  obtain ⟨hopen, hqueue, hbound⟩ := step_passes h hkept
  obtain ⟨horder, hlength⟩ := hI hopen
  refine ⟨?_, hbound hlength⟩
  rw [List.flatMap_append, List.flatMap_append, List.flatMap_singleton, List.flatMap_singleton,
    horder, List.append_assoc, hqueue, List.append_assoc]

/-! ## How the transport ends -/

/-- The event ends the task. -/
def Ends (ev : TransportEvent) (s : Transport) : Prop :=
  (∃ e, ev = .connect (.error e) ∧ s.firstTx = true) ∨
    (∃ sent, ev = .onConnect sent (.error ())) ∨
    (∃ f message, ev = .inbound (some (.ok f)) ∧ f.data? = some message ∧
      s.receiver = false) ∨ ev = .abort

/-- What a step does to the owners of the channels and to the end of the task. -/
structure Effect (ev : TransportEvent) (s s' : Transport) : Prop where
  senders : 0 < s.senders → 0 < s'.senders
  firstTx : s'.firstTx = true → s.firstTx = true ∧ ev ≠ .connect (.ok ())
  receiver : s'.receiver = false → s.receiver = false ∨ ev = .dropReceiver
  exited : 0 < s.senders → s'.phase = .exited →
    (s.phase = .exited ∧ ev ≠ .connect (.ok ())) ∨ Ends ev s

variable {c : Spawn} {s s' : Transport} {ev : TransportEvent}

theorem effect_of_same (hev : ev ≠ .connect (.ok ())) (hsenders : s'.senders = s.senders)
    (hfirst : s'.firstTx = s.firstTx) (hreceiver : s'.receiver = s.receiver)
    (hphase : s'.phase = .exited → s.phase = .exited ∨ Ends ev s) : Effect ev s s' := by
  refine ⟨fun h => hsenders ▸ h, fun h => ⟨hfirst ▸ h, hev⟩, fun h => Or.inl (hreceiver ▸ h), ?_⟩
  intro _ hexited
  exact (hphase hexited).imp_left fun h => ⟨h, hev⟩

@[simp] theorem disconnect_senders (reason : DisconnectReason) :
    (s.disconnect c reason).senders = s.senders := by
  cases reason <;> rfl

@[simp] theorem disconnect_firstTx (reason : DisconnectReason) :
    (s.disconnect c reason).firstTx = s.firstTx := by
  cases reason <;> rfl

theorem disconnect_phase {reason : DisconnectReason} (h : reason ≠ .shutdown) :
    (s.disconnect c reason).phase ≠ .exited := by
  cases reason with
  | shutdown => exact absurd rfl h
  | serverClose => exact Phase.noConfusion
  | transport e => exact Phase.noConfusion

theorem connect_effect (answer : Except SocketError Unit) :
    Effect (.connect answer) s (s.connect c answer) := by
  cases answer with
  | ok connected =>
    refine ⟨id, fun h => absurd h Bool.false_ne_true, Or.inl, fun _ h => absurd h ?_⟩
    exact Phase.noConfusion
  | error e =>
    unfold connect
    split_ifs with hfirst
    · refine ⟨id, fun h => absurd h Bool.false_ne_true, Or.inl, fun _ _ => ?_⟩
      exact Or.inr (Or.inl ⟨e, rfl, hfirst⟩)
    · exact effect_of_same (by simp) rfl rfl rfl fun h => absurd h Phase.noConfusion

theorem deliver_effect {f : Frame} {message : Message}
    (hdata : s.receiver = false → f.data? = some message) (hpumping : s.phase = .pumping)
    (h : s.deliver c message = some s') :
    Effect (.inbound (some (.ok f))) s s' := by
  unfold deliver at h
  split_ifs at h with hopen
  · obtain rfl := Option.some.inj h
    refine effect_of_same (by simp) rfl rfl rfl fun hexited => ?_
    exact absurd (hpumping.symm.trans hexited) (by simp)
  · obtain rfl := Option.some.inj h
    refine effect_of_same (by simp) rfl rfl rfl fun _ => ?_
    have hgone : s.receiver = false := Bool.eq_false_of_not_eq_true hopen
    exact Or.inr (Or.inr (Or.inr (Or.inl ⟨f, message, rfl, hdata hgone, hgone⟩)))

theorem inbound_effect {item : Option (Except SocketError Frame)} (hpumping : s.phase = .pumping)
    (h : s.inbound c item = some s') : Effect (.inbound item) s s' := by
  have hstays : s.phase = .exited → s.phase = .exited ∨ Ends (.inbound item) s := Or.inl
  have hends : ∀ reason, reason ≠ .shutdown → Effect (.inbound item) s (s.disconnect c reason) :=
    fun reason hreason => effect_of_same (by simp) (disconnect_senders reason)
      (disconnect_firstTx reason) (disconnect_receiver reason)
      fun hexited => absurd hexited (disconnect_phase hreason)
  unfold inbound at h
  split at h
  · obtain rfl := Option.some.inj h
    exact hends _ (by simp)
  · obtain rfl := Option.some.inj h
    exact hends _ (by simp)
  · rename_i f
    cases f with
    | text t => exact deliver_effect (fun _ => rfl) hpumping h
    | binary b => exact deliver_effect (fun _ => rfl) hpumping h
    | ping pong =>
      cases pong with
      | ok sent =>
        obtain rfl := Option.some.inj h
        exact effect_of_same (by simp) rfl rfl rfl hstays
      | error e =>
        obtain rfl := Option.some.inj h
        exact hends _ (by simp)
    | pong =>
      obtain rfl := Option.some.inj h
      exact effect_of_same (by simp) rfl rfl rfl hstays
    | close frame =>
      simp only [handleInbound] at h
      split_ifs at h with hopen
      · obtain ⟨u, hu, rfl⟩ := Option.map_eq_some_iff.mp h
        have hdelivered := deliver_effect (f := .close frame)
          (fun hgone => absurd (hgone.symm.trans hopen) (by simp)) hpumping hu
        refine ⟨fun hs => ?_, fun hf => ?_, fun hr => ?_, fun _ hexited => ?_⟩
        · rw [disconnect_senders]
          exact hdelivered.senders hs
        · rw [disconnect_firstTx] at hf
          exact hdelivered.firstTx hf
        · rw [disconnect_receiver] at hr
          exact hdelivered.receiver hr
        · exact absurd hexited (disconnect_phase (by simp))
      · obtain rfl := Option.some.inj h
        exact hends _ (by simp)
    | frame =>
      obtain rfl := Option.some.inj h
      exact effect_of_same (by simp) rfl rfl rfl hstays

theorem step_effect (h : s.step c ev = some s') : Effect ev s s' := by
  unfold step at h
  split at h
  · obtain rfl := Option.some.inj h
    exact connect_effect _
  · rename_i sent answer hphase
    unfold onConnect at h
    split_ifs at h
    split at h <;> obtain rfl := Option.some.inj h
    · exact effect_of_same (by simp) rfl rfl rfl fun hexited => absurd hexited Phase.noConfusion
    · exact effect_of_same (by simp) rfl rfl rfl fun _ => Or.inr (Or.inr (Or.inl ⟨sent, rfl⟩))
  · rename_i answer hphase
    unfold write at h
    split at h
    · split at h <;> obtain rfl := Option.some.inj h
      · exact effect_of_same (by simp) rfl rfl rfl Or.inl
      · exact effect_of_same (by simp) rfl rfl rfl fun hexited => absurd hexited Phase.noConfusion
    · split_ifs at h with hclosed
      obtain rfl := Option.some.inj h
      refine ⟨id, fun hf => ⟨hf, by simp⟩, Or.inl, fun hs => ?_⟩
      omega
  · rename_i item hphase
    split_ifs at h
    exact inbound_effect hphase h
  · split_ifs at h
    obtain rfl := Option.some.inj h
    unfold tick
    split
    · exact effect_of_same (by simp) rfl rfl rfl Or.inl
    · exact effect_of_same (by simp) rfl rfl rfl fun hexited => absurd hexited Phase.noConfusion
  · obtain rfl := Option.some.inj h
    exact effect_of_same (by simp) rfl rfl rfl fun hexited => absurd hexited Phase.noConfusion
  · split_ifs at h
    obtain rfl := Option.some.inj h
    exact effect_of_same (by simp) rfl rfl rfl Or.inl
  · split_ifs at h
    obtain rfl := Option.some.inj h
    exact ⟨fun _ => Nat.succ_pos _, fun hf => ⟨hf, by simp⟩, Or.inl,
      fun _ hexited => Or.inl ⟨hexited, by simp⟩⟩
  · split_ifs at h with hothers
    obtain rfl := Option.some.inj h
    exact ⟨fun _ => Nat.sub_pos_of_lt hothers, fun hf => ⟨hf, by simp⟩, Or.inl,
      fun _ hexited => Or.inl ⟨hexited, by simp⟩⟩
  · split_ifs at h
    obtain rfl := Option.some.inj h
    exact effect_of_same (by simp) rfl rfl rfl Or.inl
  · obtain rfl := Option.some.inj h
    exact ⟨id, fun hf => ⟨hf, by simp⟩, fun _ => Or.inr rfl,
      fun _ hexited => Or.inl ⟨hexited, by simp⟩⟩
  · obtain rfl := Option.some.inj h
    exact effect_of_same (by simp) rfl rfl rfl fun _ => Or.inr (Or.inr (Or.inr (Or.inr rfl)))
  · exact absurd h (by simp)

/-- Why a transport has ended. -/
inductive Ended (events : List TransportEvent) : Prop
  | refused (e : SocketError) : .connect (.error e) ∈ events →
      .connect (.ok ()) ∉ events → Ended events
  | onConnect (sent : List Message) : .onConnect sent (.error ()) ∈ events → Ended events
  | dropped (before after : List TransportEvent) (f : Frame) (message : Message) :
      events = before ++ .inbound (some (.ok f)) :: after → .dropReceiver ∈ before →
      f.data? = some message → Ended events
  | aborted : .abort ∈ events → Ended events

/-- What the events so far tell about the state. -/
structure Recorded (events : List TransportEvent) (s : Transport) : Prop where
  senders : 0 < s.senders
  firstTx : s.firstTx = true → .connect (.ok ()) ∉ events
  receiver : s.receiver = false → .dropReceiver ∈ events
  exited : s.phase = .exited → Ended events

theorem Ended.append {events : List TransportEvent} (h : Ended events)
    (hev : ev ≠ .connect (.ok ())) : Ended (events ++ [ev]) := by
  have hmem : ∀ {x}, x ∈ events → x ∈ events ++ [ev] := fun hx => List.mem_append_left _ hx
  cases h with
  | refused e herror hok =>
    refine .refused e (hmem herror) fun hmem' => ?_
    rcases List.mem_append.mp hmem' with hold | hnew
    · exact hok hold
    · exact hev (List.mem_singleton.mp hnew).symm
  | onConnect sent hsent => exact .onConnect sent (hmem hsent)
  | dropped before after f message heq hdrop hmessage =>
    refine .dropped before (after ++ [ev]) f message ?_ hdrop hmessage
    rw [heq, List.append_assoc, List.cons_append]
  | aborted habort => exact .aborted (hmem habort)

theorem step_recorded {events : List TransportEvent} (hI : Recorded events s)
    (h : s.step c ev = some s') : Recorded (events ++ [ev]) s' := by
  obtain ⟨hsenders, hfirst, hreceiver, hexited⟩ := step_effect h
  have hnew : ev ∈ events ++ [ev] := List.mem_append_right _ List.mem_cons_self
  refine ⟨hsenders hI.senders, fun hf hmem => ?_, fun hr => ?_, fun hphase => ?_⟩
  · obtain ⟨hold, hev⟩ := hfirst hf
    rcases List.mem_append.mp hmem with hmem | hmem
    · exact hI.firstTx hold hmem
    · exact hev (List.mem_singleton.mp hmem).symm
  · rcases hreceiver hr with hold | rfl
    · exact List.mem_append_left _ (hI.receiver hold)
    · exact hnew
  · rcases hexited hI.senders hphase with ⟨hold, hev⟩ | hends
    · exact (hI.exited hold).append hev
    · rcases hends with ⟨e, rfl, hf⟩ | ⟨sent, rfl⟩ | ⟨f, message, rfl, hmessage, hr⟩ | rfl
      · refine .refused e hnew fun hmem => ?_
        rcases List.mem_append.mp hmem with hmem | hmem
        · exact hI.firstTx hf hmem
        · exact absurd (List.mem_singleton.mp hmem) (by simp)
      · exact .onConnect sent hnew
      · exact .dropped events [] f message rfl (hI.receiver hr) hmessage
      · exact .aborted hnew

/-- A transport loses, repeats and reorders nothing on the way to the receiver, over all of its
connections. It ends only if the first connect fails, if `on_connect` fails, if it is aborted,
or when a message comes for a receiver that is gone before. That all senders of the others are gone
does not end it. -/
theorem transport_outcome {events : List TransportEvent}
    (h : Run (fun s ev s' => s.step c ev = some s') spawn events s) :
    (s.receiver = true → events.flatMap TransportEvent.delivered =
        events.flatMap TransportEvent.received ++ s.incoming ∧
      s.incoming.length ≤ c.capacity) ∧ (s.phase = .exited → Ended events) := by
  have hstart : Recorded [] spawn :=
    ⟨Nat.two_pos, fun _ => List.not_mem_nil, fun hr => absurd hr (by simp [spawn]),
      fun hexited => absurd hexited Phase.noConfusion⟩
  have hempty : InOrder c [] spawn := fun _ => ⟨rfl, Nat.zero_le _⟩
  have hrecorded := h.history (I := Recorded) (f := fun ev => [ev])
    (fun _ _ _ _ hI hstep => step_recorded hI hstep) hstart
  have horder := h.history (I := InOrder c) (f := fun ev => [ev])
    (fun _ _ _ _ hI hstep => step_inOrder hI hstep) hempty
  rw [List.flatMap_singleton', List.nil_append] at hrecorded horder
  exact ⟨horder, hrecorded.exited⟩

/-! ## Subscribing -/

/-- `on_connect` sends one request, and nobody else sends. -/
def Subscribes (request : Message) : TransportEvent → Prop
  | .onConnect sent answer => sent = [request] ∧ answer = .ok ()
  | .send _ => False
  | _ => True

/-- The attempts since the last connection, by the events. -/
def failures : List Event → ℕ
  | .disconnected _ :: events => failures events + 1
  | .reconnecting _ _ :: events => failures events
  | _ => 0

/-- Every announced attempt is the number of failures so far, with its delay. -/
def Numbered (c : Spawn) : List Event → Prop
  | .reconnecting attempt nextDelay :: events =>
    attempt = failures events ∧ nextDelay = c.delay attempt ∧ Numbered c events
  | _ :: events => Numbered c events
  | [] => True

/-- Each connection has carried the request or nothing. -/
def Carried (request : Message) (written : List (List Message)) : Prop :=
  ∀ messages ∈ written, messages = [] ∨ messages = [request]

/-- Between connections nothing waits to be sent. -/
def Quiet (request : Message) (s : Transport) : Prop :=
  s.outgoing = [] ∧ Carried request s.written

def InPhase (request : Message) (s : Transport) : Prop :=
  match s.phase with
  | .connecting => s.Quiet request
  | .sleeping _ => s.Quiet request
  | .connected => s.Quiet request ∧ s.written.head? = some []
  | .pumping =>
    (s.outgoing = [request] ∧ s.written.head? = some [] ∧ Carried request s.written) ∨
      (s.Quiet request ∧ s.written.head? = some [request])
  | .exited => Carried request s.written

/-- The invariant of a transport that only subscribes. -/
structure Subscribed (c : Spawn) (request : Message) (s : Transport) : Prop where
  phase : s.InPhase request
  numbered : Numbered c s.emitted
  attempt : s.phase ≠ .exited → s.attempt = failures s.emitted

variable {request : Message}

theorem Carried.cons_nil {written : List (List Message)} (h : Carried request written) :
    Carried request ([] :: written) :=
  List.forall_mem_cons.mpr ⟨Or.inl rfl, h⟩

/-- After the end of a connection nothing waits, and the next attempt is numbered. -/
theorem disconnect_subscribed {reason : DisconnectReason} (hquiet : s.Quiet request)
    (hnumbered : Numbered c s.emitted) (hattempt : s.attempt = failures s.emitted) :
    Subscribed c request (s.disconnect c reason) := by
  have hnext : s.attempt + 1 = failures (.disconnected reason :: s.emitted) :=
    congrArg (· + 1) hattempt
  cases reason with
  | shutdown => exact ⟨hquiet.2, hnumbered, fun h => absurd rfl h⟩
  | serverClose => exact ⟨hquiet, ⟨hnext, rfl, hnumbered⟩, fun _ => hnext⟩
  | transport e => exact ⟨hquiet, ⟨hnext, rfl, hnumbered⟩, fun _ => hnext⟩

theorem connect_subscribed {answer : Except SocketError Unit} (hquiet : s.Quiet request)
    (hnumbered : Numbered c s.emitted) (hattempt : s.attempt = failures s.emitted) :
    Subscribed c request (s.connect c answer) := by
  cases answer with
  | ok connected =>
    exact ⟨⟨⟨hquiet.1, hquiet.2.cons_nil⟩, rfl⟩, hnumbered, fun _ => rfl⟩
  | error e =>
    unfold connect
    split_ifs
    · exact ⟨hquiet.2, hnumbered, fun h => absurd rfl h⟩
    · show Subscribed c request (s.disconnect c (.transport e))
      exact disconnect_subscribed hquiet hnumbered hattempt

/-- The invariant looks neither at the incoming channel nor at the owners of the channels. -/
theorem Subscribed.congr (h : Subscribed c request s) (hphase : s'.phase = s.phase)
    (houtgoing : s'.outgoing = s.outgoing) (hwritten : s'.written = s.written)
    (hemitted : s'.emitted = s.emitted) (hattempt : s'.attempt = s.attempt) :
    Subscribed c request s' := by
  obtain ⟨hp, hn, ha⟩ := h
  refine ⟨?_, hemitted ▸ hn, ?_⟩
  · unfold InPhase Quiet at hp ⊢
    rw [hphase, houtgoing, hwritten]
    exact hp
  · rw [hphase, hattempt, hemitted]
    exact ha

theorem Subscribed.carried (h : Subscribed c request s) : Carried request s.written := by
  have hp := h.phase
  unfold InPhase at hp
  split at hp
  · exact hp.2
  · exact hp.2
  · exact hp.1.2
  · rcases hp with ⟨-, -, hcarried⟩ | ⟨hquiet, -⟩
    · exact hcarried
    · exact hquiet.2
  · exact hp

/-- A transport that pumps and has nothing to send has sent the request. -/
theorem Subscribed.idle (h : Subscribed c request s) (hphase : s.phase = .pumping)
    (houtgoing : s.outgoing = []) : s.Quiet request ∧ s.written.head? = some [request] ∧
      s.attempt = failures s.emitted := by
  have hattempt := h.attempt (by simp [hphase])
  have hp := h.phase
  rw [InPhase, hphase] at hp
  rcases hp with ⟨hwaits, -⟩ | ⟨hquiet, hhead⟩
  · exact absurd (hwaits.symm.trans houtgoing) (by simp)
  · exact ⟨hquiet, hhead, hattempt⟩

theorem inbound_subscribed {item : Option (Except SocketError Frame)}
    (hI : Subscribed c request s) (hphase : s.phase = .pumping) (houtgoing : s.outgoing = [])
    (h : s.inbound c item = some s') : Subscribed c request s' := by
  obtain ⟨hquiet, -, hattempt⟩ := hI.idle hphase houtgoing
  have hends : ∀ reason, Subscribed c request (s.disconnect c reason) :=
    fun reason => disconnect_subscribed hquiet hI.numbered hattempt
  have hdeliver : ∀ {message u}, s.deliver c message = some u → Subscribed c request u := by
    intro message u hu
    unfold deliver at hu
    split_ifs at hu
    · obtain rfl := Option.some.inj hu
      exact hI.congr rfl rfl rfl rfl rfl
    · obtain rfl := Option.some.inj hu
      exact hends .shutdown
  unfold inbound at h
  split at h
  · obtain rfl := Option.some.inj h
    exact hends _
  · obtain rfl := Option.some.inj h
    exact hends _
  · rename_i f
    cases f with
    | text t => exact hdeliver h
    | binary b => exact hdeliver h
    | ping pong =>
      cases pong with
      | ok sent =>
        obtain rfl := Option.some.inj h
        exact hI
      | error e =>
        obtain rfl := Option.some.inj h
        exact hends _
    | pong =>
      obtain rfl := Option.some.inj h
      exact hI
    | close frame =>
      simp only [handleInbound, deliver] at h
      split_ifs at h
      · obtain rfl := Option.some.inj h
        exact disconnect_subscribed hquiet hI.numbered hattempt
      · exact absurd h (by simp)
      · obtain rfl := Option.some.inj h
        exact hends _
    | frame =>
      obtain rfl := Option.some.inj h
      exact hI

/-- The step lemma of a transport that only subscribes. -/
theorem step_subscribed (hI : Subscribed c request s) (hguard : Subscribes request ev)
    (h : s.step c ev = some s') : Subscribed c request s' := by
  have hp := hI.phase
  unfold step at h
  split at h
  · rename_i answer hphase
    obtain rfl := Option.some.inj h
    rw [InPhase, hphase] at hp
    exact connect_subscribed hp hI.numbered (hI.attempt (by simp [hphase]))
  · rename_i sent answer hphase
    obtain ⟨rfl, rfl⟩ := hguard
    rw [InPhase, hphase] at hp
    obtain ⟨⟨houtgoing, hcarried⟩, hhead⟩ := hp
    unfold onConnect at h
    split_ifs at h
    obtain rfl := Option.some.inj h
    refine ⟨Or.inl ⟨?_, hhead, hcarried⟩, hI.numbered, fun _ => hI.attempt (by simp [hphase])⟩
    simp [houtgoing]
  · rename_i answer hphase
    have hattempt := hI.attempt (by simp [hphase])
    rw [InPhase, hphase] at hp
    unfold write at h
    split at h
    · rename_i message rest hwaits
      rcases hp with ⟨hrequest, hhead, hcarried⟩ | ⟨hquiet, -⟩
      · obtain ⟨rfl, rfl⟩ := List.cons.inj (hwaits.symm.trans hrequest)
        split at h <;> obtain rfl := Option.some.inj h
        · obtain ⟨older, holder⟩ := List.head?_eq_some_iff.mp hhead
          refine ⟨?_, hI.numbered, fun _ => hattempt⟩
          unfold InPhase
          dsimp only
          rw [hphase, holder]
          rw [holder] at hcarried
          refine Or.inr ⟨⟨rfl, ?_⟩, rfl⟩
          exact List.forall_mem_cons.mpr ⟨Or.inr rfl, (List.forall_mem_cons.mp hcarried).2⟩
        · exact disconnect_subscribed ⟨rfl, hcarried⟩ hI.numbered hattempt
      · exact absurd (hwaits.symm.trans hquiet.1) (by simp)
    · rename_i hempty
      split_ifs at h
      obtain rfl := Option.some.inj h
      exact disconnect_subscribed (hI.idle hphase hempty).1 hI.numbered hattempt
  · rename_i item hphase
    split_ifs at h with hidle
    exact inbound_subscribed hI hphase hidle.1 h
  · rename_i answer hphase
    split_ifs at h with hidle
    obtain rfl := Option.some.inj h
    unfold tick
    split
    · exact hI
    · exact disconnect_subscribed (hI.idle hphase hidle.1.1).1 hI.numbered
        (hI.attempt (by simp [hphase]))
  · rename_i delay hphase
    obtain rfl := Option.some.inj h
    rw [InPhase, hphase] at hp
    exact ⟨hp, hI.numbered, fun _ => hI.attempt (by simp [hphase])⟩
  · exact absurd hguard id
  · split_ifs at h
    obtain rfl := Option.some.inj h
    exact hI.congr rfl rfl rfl rfl rfl
  · split_ifs at h
    obtain rfl := Option.some.inj h
    exact hI.congr rfl rfl rfl rfl rfl
  · split_ifs at h
    obtain rfl := Option.some.inj h
    exact hI.congr rfl rfl rfl rfl rfl
  · obtain rfl := Option.some.inj h
    exact hI.congr rfl rfl rfl rfl rfl
  · obtain rfl := Option.some.inj h
    exact ⟨hI.carried, hI.numbered, fun hrunning => absurd rfl hrunning⟩
  · exact absurd h (by simp)

theorem step_inbound {item : Option (Except SocketError Frame)}
    (h : s.step c (.inbound item) = some s') : s.phase = .pumping ∧ s.Idle := by
  cases hphase : s.phase with
  | pumping =>
    simp only [step, hphase] at h
    split_ifs at h with hidle
    exact ⟨rfl, hidle⟩
  | _ => exact absurd h (by simp [step, hphase])

theorem spawn_subscribed : Subscribed c request spawn :=
  ⟨⟨rfl, fun _ hmem => absurd hmem List.not_mem_nil⟩, trivial, fun _ => rfl⟩

/-- Whatever the server and the network do: where `on_connect` sends one request and nobody
else sends, no connection carries more than this request, and no frame is read before the
request was sent on the same connection. `on_connect` never waits for room, so a reconnection
is not held up by what the connections before it have left. The attempts are counted from the
last connection on. -/
theorem connections_subscribed (hroom : 0 < c.capacity) {events : List TransportEvent}
    (h : Run (Guarded (fun s ev s' => s.step c ev = some s') fun _ ev => Subscribes request ev)
      spawn events s) :
    Run (fun s ev s' => s.step c ev = some s' ∧
        ∀ item, ev = .inbound item → s.written.head? = some [request]) spawn events s ∧
      Carried request s.written ∧
      (s.phase = .connected → (s.step c (.onConnect [request] (.ok ()))).isSome = true) ∧
      Numbered c s.emitted := by
  have hI : Subscribed c request s := h.invariant (I := Subscribed c request)
    (fun _ _ _ hI hstep => step_subscribed hI hstep.1 hstep.2) spawn_subscribed
  refine ⟨h.along (I := Subscribed c request) (fun u ev u' hu hstep => ?_) spawn_subscribed,
    hI.carried, fun hphase => ?_, hI.numbered⟩
  · refine ⟨step_subscribed hu hstep.1 hstep.2, hstep.2, fun item hinbound => ?_⟩
    obtain ⟨-, hread⟩ := hstep
    rw [hinbound] at hread
    obtain ⟨hphase, hidle⟩ := step_inbound hread
    exact (hu.idle hphase hidle.1).2.1
  · have hp := hI.phase
    rw [InPhase, hphase] at hp
    simp only [step, hphase, onConnect, hp.1.1]
    simp only [List.length_nil, List.length_singleton]
    rw [if_pos (by omega)]
    rfl

/-! ## A transport with two connections -/

/-- Delays from 100 on that double up to 30000, and room for two messages. -/
def soleSpawn : Spawn := ⟨some 10000, fun attempt => min (100 * 2 ^ (attempt - 1)) 30000, 2⟩

/-- The server answers and drops the connection. The second connect is refused, and on the next
connection the request cannot be sent. -/
def twoConnections : List TransportEvent :=
  [.connect (.ok ()), .onConnect [.text "subscribe"] (.ok ()), .write (.ok ()),
    .inbound (some (.ok (.text "subscribed"))), .inbound (some (.ok (.text "update"))),
    .recv (.text "subscribed"), .inbound none, .wake, .connect (.error (.other "refused")), .wake,
    .connect (.ok ()), .onConnect [.text "subscribe"] (.ok ()),
    .write (.error .connectionClosed)]

theorem connections_subscribed_sample : ∃ s,
    s.written = [[], [.text "subscribe"]] ∧ s.incoming = [.text "update"] ∧
      s.emitted.head? = some (.reconnecting 1 100) ∧
      Run (fun s ev s' => s.step soleSpawn ev = some s' ∧
        ∀ item, ev = .inbound item → s.written.head? = some [.text "subscribe"]) spawn
          twoConnections s := by
  have hallowed : ∀ ev ∈ twoConnections, Subscribes (.text "subscribe") ev := by
    simp [twoConnections, Subscribes]
  exact ⟨_, rfl, rfl, rfl, (connections_subscribed (c := soleSpawn) (by decide)
    (Run.of_forall hallowed rfl)).1⟩

theorem transport_outcome_sample : ∃ s : Transport, s.receiver = true ∧
    (s.receiver = true → twoConnections.flatMap TransportEvent.delivered =
        twoConnections.flatMap TransportEvent.received ++ s.incoming ∧
      s.incoming.length ≤ soleSpawn.capacity) ∧ (s.phase = .exited → Ended twoConnections) := by
  have hallowed : ∀ ev ∈ twoConnections, Subscribes (.text "subscribe") ev := by
    simp [twoConnections, Subscribes]
  have hrun : Run (Guarded (fun s ev s' => s.step soleSpawn ev = some s') fun _ ev =>
      Subscribes (.text "subscribe") ev) spawn twoConnections _ := Run.of_forall hallowed rfl
  exact ⟨_, rfl, transport_outcome (hrun.mono fun _ _ _ hstep => hstep.2)⟩

end Transport

end Antegen.Ws
