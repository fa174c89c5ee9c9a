import Antegen.ClientSystem

/-!
# Threads in flight

A thread that staging has handed over is on its way to the processor, waits in its queue,
is with a worker, or is on its way back. Staging remembers it in `queued_threads`. The
processor only moves threads from one place to the next, so the number of hand-overs of a
thread that have not come back changes in three places: staging hands the thread over,
staging takes it back, and a cancellation drops it from the queue. Staging hands over no
thread that it remembers; but a cancelled thread is forgotten at once, while its worker
goes on.
-/
namespace Antegen.Client

open Transition Staging

/-- The message hands the thread over. -/
def ProcessorMessage.readies (k : Pubkey) : ProcessorMessage → Bool
  | .processReady ready => ready.threadPubkey = k
  | _ => false

/-- The message brings the thread back. -/
def StagingMessage.completes (k : Pubkey) : StagingMessage → Bool
  | .threadCompleted threadPubkey _ => threadPubkey = k
  | _ => false

namespace Pool

variable {e : CacheEnv}

/-- How often the processor has the thread, as far as staging has not heard of it. -/
def carried (p : Pool e) (k : Pubkey) : ℕ :=
  p.processor.pendingQueue.countP (fun ready => ready.threadPubkey = k) +
    p.processor.activeWorkers.val.count k +
    p.staging.messages.countP (StagingMessage.completes k)

theorem notify_messages {p : Pool e} (h : p.staging.running = true) (message : StagingMessage) :
    (p.notify message).staging.messages = p.staging.messages ++ [message] := by
  simp [notify, Mailbox.send, h]

theorem notify_running (p : Pool e) (message : StagingMessage) :
    (p.notify message).staging.running = p.staging.running := by
  cases hrunning : p.staging.running <;> simp [notify, Mailbox.send, hrunning]

theorem finish_running (gone : Finset Pubkey) (r : Pool e × Option (ReadyThread × Thread)) :
    (finish gone r).staging.running = r.1.staging.running := by
  obtain ⟨p, _ | ⟨ready, t⟩⟩ := r
  · rfl
  · unfold finish spawn
    dsimp only
    split_ifs <;> rfl

/-- Trying to spawn a worker moves a thread and drops none. -/
theorem trySpawn_carried {rpc : AccountCache.Rpc} {p : Pool e} {gone : Finset Pubkey}
    (hrunning : p.staging.running = true) (hsucceeds : ∀ spawned ∈ (trySpawnNextWorker rpc p).2,
      spawned.1.threadPubkey ∉ p.registered \ gone) (k : Pubkey) :
    (finish gone (trySpawnNextWorker rpc p)).carried k = p.carried k := by
  rcases trySpawnNextWorker_cases rpc p with ⟨-, heq⟩ | ⟨-, heq⟩ | ⟨r, rest, -, hqueue, -, heq⟩ |
    ⟨r, rest, -, hqueue, -, -, heq⟩ | ⟨r, rest, t, -, hqueue, hactive, -, heq⟩
  · rw [heq]
    rfl
  · rw [heq]
    rfl
  · rw [heq]
    simp only [finish, without, carried, hqueue, List.countP_append, List.countP_cons,
      List.countP_nil]
    omega
  · have hsent := notify_messages (p := { p with
      processor := { p.processor with pendingQueue := rest }
      cache := (lookup rpc p.cache r).2 }) hrunning (.threadCompleted r.threadPubkey .executed)
    rw [heq]
    simp only [finish, without, carried, hsent, hqueue, List.countP_append, List.countP_cons,
      List.countP_nil, StagingMessage.completes]
    by_cases hk : r.threadPubkey = k
    · simp [hk, notify]
      omega
    · simp [hk, notify]
  · have hfree := hsucceeds (r, t) (by rw [heq]; rfl)
    rw [heq]
    simp only [finish]
    rw [spawn_of_free hfree]
    simp only [without, carried, hqueue, List.countP_cons, Finset.insert_val_of_notMem hactive,
      Multiset.count_cons]
    by_cases hk : r.threadPubkey = k
    · simp [hk]
      omega
    · simp [hk, Ne.symm hk]

theorem trySpawnNextWorker_running (rpc : AccountCache.Rpc) (p : Pool e) :
    (trySpawnNextWorker rpc p).1.staging.running = p.staging.running := by
  rcases trySpawnNextWorker_cases rpc p with ⟨-, heq⟩ | ⟨-, heq⟩ | ⟨r, rest, -, -, -, heq⟩ |
    ⟨r, rest, -, -, -, -, heq⟩ | ⟨r, rest, t, -, -, -, -, heq⟩
  · rw [heq]
  · rw [heq]
  · rw [heq]
  · rw [heq]
    exact notify_running _ _
  · rw [heq]

theorem handled_running (rpc : AccountCache.Rpc) (p : Pool e) (message : ProcessorMessage)
    (gone : Finset Pubkey) :
    (p.handled rpc message gone).staging.running = p.staging.running := by
  rw [handled, finish_running]
  cases message with
  | processReady ready => exact trySpawnNextWorker_running rpc (p.enqueued ready)
  | cancelThread threadPubkey => rfl
  | queryStatus => rfl
  | shutdown => rfl
  | workerCompleted result =>
    rcases handle_workerCompleted rpc p result with ⟨-, heq⟩ | ⟨-, heq⟩
    · rw [heq]
      rfl
    · rw [heq]
      exact trySpawnNextWorker_running rpc (p.answered result)

/-- The processor takes over a thread. -/
theorem processReady_carried {rpc : AccountCache.Rpc} {p : Pool e} {gone : Finset Pubkey}
    {ready : ReadyThread} (hrunning : p.staging.running = true)
    (hsucceeds : SpawnsSucceed p (.message rpc (.processReady ready) gone)) (k : Pubkey) :
    (p.handled rpc (.processReady ready) gone).carried k =
      p.carried k + if ready.threadPubkey = k then 1 else 0 := by
  refine (trySpawn_carried (p := p.enqueued ready) hrunning hsucceeds k).trans ?_
  simp only [enqueued, carried, List.countP_append, List.countP_cons, List.countP_nil]
  by_cases hk : ready.threadPubkey = k
  · simp only [hk, decide_true, if_true]
    omega
  · simp [hk]

/-- A report moves the thread from its worker to the way back. -/
theorem workerCompleted_carried {rpc : AccountCache.Rpc} {p : Pool e} {gone : Finset Pubkey}
    {result : ExecutionResult} (hrunning : p.staging.running = true)
    (hactive : result.threadPubkey ∈ p.processor.activeWorkers)
    (hsucceeds : SpawnsSucceed p (.message rpc (.workerCompleted result) gone)) (k : Pubkey) :
    (p.handled rpc (.workerCompleted result) gone).carried k = p.carried k := by
  rcases handle_workerCompleted rpc p result with ⟨hstopped, -⟩ | ⟨-, heq⟩
  · exact absurd hrunning (by simp [hstopped])
  · rw [handled, heq]
    have hfree : ∀ spawned ∈ (trySpawnNextWorker rpc (p.answered result)).2,
        spawned.1.threadPubkey ∉ (p.answered result).registered \ gone := by
      intro spawned hspawned
      refine hsucceeds spawned ?_
      rw [heq]
      exact hspawned
    refine (trySpawn_carried (p := p.answered result) hrunning hfree k).trans ?_
    simp only [answered, reported, carried, List.countP_append, List.countP_cons, List.countP_nil,
      Finset.erase_val, StagingMessage.completes]
    by_cases hk : result.threadPubkey = k
    · rw [← hk]
      have hone : 0 < p.processor.activeWorkers.val.count result.threadPubkey :=
        Multiset.count_pos.mpr hactive
      simp only [Multiset.count_erase_self, decide_true, if_true]
      omega
    · simp [hk, Multiset.count_erase_of_ne (Ne.symm hk)]

/-- A cancellation drops the thread from the queue. -/
theorem cancelThread_carried (rpc : AccountCache.Rpc) (p : Pool e) (gone : Finset Pubkey)
    (k : Pubkey) : (p.handled rpc (.cancelThread k) gone).carried k +
      p.processor.pendingQueue.countP (fun ready => ready.threadPubkey = k) = p.carried k := by
  have hnone : (p.processor.pendingQueue.filter (·.threadPubkey ≠ k)).countP
      (fun ready => ready.threadPubkey = k) = 0 := by
    rw [List.countP_eq_zero]
    intro ready hready
    simpa using (List.mem_filter.mp hready).2
  simp only [handled, handle, finish, without, carried, hnone]
  omega

theorem cancelThread_carried_of_ne (rpc : AccountCache.Rpc) (p : Pool e) (gone : Finset Pubkey)
    {k k' : Pubkey} (h : k ≠ k') :
    (p.handled rpc (.cancelThread k') gone).carried k = p.carried k := by
  have hsame : (p.processor.pendingQueue.filter (·.threadPubkey ≠ k')).countP
      (fun ready => ready.threadPubkey = k) =
      p.processor.pendingQueue.countP (fun ready => ready.threadPubkey = k) := by
    rw [List.countP_filter]
    refine List.countP_congr fun ready _ => ?_
    simp only [ne_eq, Bool.and_eq_true, decide_eq_true_eq, and_iff_left_iff_imp]
    exact fun hk => hk ▸ h
  simp only [handled, handle, finish, without, carried, hsame]

end Pool

/-- A split of an appended list at an element that was not appended. -/
theorem append_split {α : Type*} {l m before later : List α} {x : α}
    (h : l ++ m = before ++ x :: later) (hx : x ∉ m) :
    ∃ rest, l = before ++ x :: rest ∧ later = rest ++ m := by
  rcases List.append_eq_append_iff.mp h with ⟨c, -, hm⟩ | ⟨c, hl, hlater⟩
  · exact absurd (by rw [hm]; simp) hx
  · cases c with
    | nil => exact absurd (by rw [← List.nil_append m, ← hlater]; simp) hx
    | cons y c =>
      obtain ⟨rfl, rfl⟩ := List.cons.inj hlater
      exact ⟨c, hl, rfl⟩

/-- Nothing is sent. -/
theorem Effect.silent {effects : List Effect} (h : ∀ message, .sent message ∉ effects)
    (recalled : Finset Pubkey) :
    effects.filterMap Effect.message = [] ∧ effects.foldl Effect.recall recalled = recalled := by
  induction effects with
  | nil => exact ⟨rfl, rfl⟩
  | cons effect effects ih =>
    have hrest := ih fun message hmessage => h message (List.mem_cons_of_mem _ hmessage)
    cases effect with
    | sent message => exact absurd List.mem_cons_self (h message)
    | tracks k t => exact hrest
    | untracks k => exact hrest

namespace StagingActor

variable {e : CacheEnv} {Q : Type} [MinHeap Q ScheduledThread.triggerValue]

/-- Refetches that do not fail for threads in flight leave these alone. -/
theorem processEvictions_queuedThreads {rpc : ℕ → AccountCache.Rpc} {n : ℕ}
    {a : StagingActor e Q} (h : ∀ k ∈ a.state.queuedThreads,
      .untracks k ∉ (a.processEvictions rpc n).2) :
    (a.processEvictions rpc n).1.state.queuedThreads = a.state.queuedThreads ∧
      (a.processEvictions rpc n).1.state.processorRef = a.state.processorRef := by
  induction n generalizing a with
  | zero => exact ⟨rfl, rfl⟩
  | succ n ih =>
    unfold processEvictions at h ⊢
    cases hevictions : a.evictions with
    | nil => exact ⟨rfl, rfl⟩
    | cons k rest =>
      rw [hevictions] at h
      dsimp only at h ⊢
      have hfirst : (refetch (rpc n) { a with evictions := rest } k).1.state.queuedThreads =
          a.state.queuedThreads ∧
          (refetch (rpc n) { a with evictions := rest } k).1.state.processorRef =
            a.state.processorRef := by
        rcases refetch_cases (rpc n) { a with evictions := rest } k with
          ⟨t, -, heq⟩ | ⟨err, -, heq⟩
        · rw [heq]
          exact ⟨StagingState.track_queuedThreads _ k t, StagingState.track_processorRef _ k t⟩
        · have hk : k ∉ a.state.queuedThreads := fun hk => h k hk (by rw [heq]; simp)
          rw [heq]
          exact ⟨Finset.erase_eq_of_notMem hk, rfl⟩
      have hrest := ih (a := (refetch (rpc n) { a with evictions := rest } k).1) fun k' hk' =>
        fun hmem => h k' (hfirst.1 ▸ hk') (List.mem_append_right _ hmem)
      exact ⟨hrest.1.trans hfirst.1, hrest.2.trans hfirst.2⟩

theorem prepareTick_queuedThreads {rpc : ℕ → AccountCache.Rpc} {a : StagingActor e Q}
    {clock : Clock} (h : ∀ k ∈ a.state.queuedThreads, .untracks k ∉ (a.prepareTick rpc clock).2) :
    (a.prepareTick rpc clock).1.state.queuedThreads = a.state.queuedThreads ∧
      (a.prepareTick rpc clock).1.state.processorRef = a.state.processorRef := by
  rw [← a.startTick_queuedThreads clock] at h ⊢
  rw [← a.startTick_processorRef clock]
  exact processEvictions_queuedThreads h

end StagingActor

namespace System

variable {e : CacheEnv} {Q : Type}

/-- How many hand-overs of the thread have not come back. -/
def outstanding (s : System e Q) (k : Pubkey) : ℕ :=
  s.inbox.countP (ProcessorMessage.readies k) + s.pool.carried k

/-- Staging remembers a thread exactly while one hand-over of it is outstanding that has not
been cancelled, and never is more than one outstanding. -/
def InAgreement (s : System e Q) (k : Pubkey) : Prop :=
  (k ∈ s.staging.queuedThreads ↔ s.outstanding k = 1 ∧ k ∉ s.recalled) ∧ s.outstanding k ≤ 1

/-- The invariant. A cancellation that is still on its way is older than the hand-over of a
thread that staging remembers. -/
structure InStep (n : ℕ) (s : System e Q) : Prop where
  agreement : ∀ k, s.InAgreement k
  order : ∀ k ∈ s.staging.queuedThreads, ∀ before later,
    s.inbox = before ++ .cancelThread k :: later → ∃ message ∈ later, message.readies k = true
  sent : ∀ message ∈ s.inbox,
    (∃ ready, message = .processReady ready) ∨ ∃ k, message = .cancelThread k
  initialized : s.staging.queuedThreads.Nonempty → s.staging.processorRef = true
  running : s.pool.staging.running = true
  balanced : Pool.Balanced n s.pool

theorem inStep_start [MinHeap Q ScheduledThread.triggerValue] (cache : AccountCache e) (n : ℕ) :
    InStep n (start cache n : System e Q) where
  agreement k := by
    simp [InAgreement, outstanding, start, StagingActor.start, Pool.start, Pool.carried]
  order k hk := absurd hk (Finset.notMem_empty k)
  sent message hmessage := absurd hmessage (List.not_mem_nil)
  initialized h := absurd h Finset.not_nonempty_empty
  running := rfl
  balanced := Pool.balanced_start cache _ n

theorem InStep.of_same {n : ℕ} {s t : System e Q} (h : InStep n s)
    (hqueued : t.staging.queuedThreads = s.staging.queuedThreads)
    (href : s.staging.processorRef = true → t.staging.processorRef = true)
    (hinbox : t.inbox = s.inbox) (hrecalled : t.recalled = s.recalled)
    (hcarried : ∀ k, t.pool.carried k = s.pool.carried k)
    (hrunning : t.pool.staging.running = true) (hbalanced : Pool.Balanced n t.pool) :
    InStep n t where
  agreement k := by
    have hsame : t.outstanding k = s.outstanding k := by
      rw [outstanding, outstanding, hinbox, hcarried]
    rw [InAgreement, hsame, hqueued, hrecalled]
    exact h.agreement k
  order := by
    rw [hqueued, hinbox]
    exact h.order
  sent := by
    rw [hinbox]
    exact h.sent
  initialized hnonempty := href (h.initialized (hqueued ▸ hnonempty))
  running := hrunning
  balanced := hbalanced

/-- What staging sends is outstanding. -/
theorem after_outstanding (s : System e Q) (a : StagingActor e Q) (effects : List Effect)
    (k : Pubkey) : (s.after a effects).outstanding k = s.outstanding k +
      (effects.filterMap Effect.message).countP (ProcessorMessage.readies k) := by
  show (s.inbox ++ effects.filterMap Effect.message).countP _ + s.pool.carried k = _
  rw [List.countP_append, outstanding]
  omega

/-- A message that staging handles without sending anything. -/
theorem InStep.silent {n : ℕ} {s : System e Q} (h : InStep n s) {a : StagingActor e Q}
    {effects : List Effect} (hsilent : ∀ message, .sent message ∉ effects)
    (hqueued : a.state.queuedThreads = s.staging.queuedThreads)
    (href : s.staging.processorRef = true → a.state.processorRef = true) :
    InStep n (s.after a effects) := by
  obtain ⟨hnone, hrecalled⟩ := Effect.silent hsilent s.recalled
  refine h.of_same hqueued href ?_ hrecalled (fun _ => rfl) h.running
    ⟨h.balanced.owed, h.balanced.permits⟩
  show s.inbox ++ effects.filterMap Effect.message = s.inbox
  rw [hnone, List.append_nil]

/-- A cancellation. -/
theorem InStep.cancel {n : ℕ} {s : System e Q} (h : InStep n s) {a : StagingActor e Q}
    {k : Pubkey} {t : Thread} (hk : k ∈ s.staging.queuedThreads)
    (hqueued : a.state.queuedThreads = s.staging.queuedThreads.erase k)
    (href : a.state.processorRef = s.staging.processorRef) :
    InStep n (s.after a [.sent (.cancelThread k), .tracks k t]) := by
  have hsent : [Effect.sent (.cancelThread k), .tracks k t].filterMap Effect.message =
      [.cancelThread k] := rfl
  refine ⟨fun k' => ?_, ?_, ?_, ?_, h.running, ⟨h.balanced.owed, h.balanced.permits⟩⟩
  · have hsame : (s.after a [.sent (.cancelThread k), .tracks k t]).outstanding k' =
        s.outstanding k' := by
      rw [after_outstanding, hsent]
      simp [ProcessorMessage.readies]
    have hrecalled : k' ∈ (s.after a [.sent (.cancelThread k), .tracks k t]).recalled ↔
        k' = k ∨ k' ∈ s.recalled := Finset.mem_insert
    have hmember : k' ∈ (s.after a [.sent (.cancelThread k), .tracks k t]).staging.queuedThreads ↔
        k' ≠ k ∧ k' ∈ s.staging.queuedThreads := by
      show k' ∈ a.state.queuedThreads ↔ _
      rw [hqueued, Finset.mem_erase]
    have hold := h.agreement k'
    rw [InAgreement] at hold
    rw [InAgreement, hsame, hrecalled, hmember]
    refine ⟨⟨fun hmem => ⟨(hold.1.mp hmem.2).1, ?_⟩, fun hone => ⟨?_, ?_⟩⟩, hold.2⟩
    · rintro (hself | hearlier)
      · exact hmem.1 hself
      · exact (hold.1.mp hmem.2).2 hearlier
    · exact fun hself => hone.2 (Or.inl hself)
    · exact hold.1.mpr ⟨hone.1, fun hearlier => hone.2 (Or.inr hearlier)⟩
  · intro k' hk' before later hinbox
    have hmember : k' ≠ k ∧ k' ∈ s.staging.queuedThreads := by
      have hk'' : k' ∈ a.state.queuedThreads := hk'
      rw [hqueued] at hk''
      exact Finset.mem_erase.mp hk''
    obtain ⟨rest, hrest, rfl⟩ := append_split hinbox (by rw [hsent]; simpa using hmember.1)
    obtain ⟨message, hmessage, hreadies⟩ := h.order k' hmember.2 before rest hrest
    exact ⟨message, List.mem_append_left _ hmessage, hreadies⟩
  · intro message hmessage
    rcases List.mem_append.mp hmessage with hold | hnew
    · exact h.sent message hold
    · rw [hsent, List.mem_singleton] at hnew
      exact Or.inr ⟨k, hnew⟩
  · intro _
    show a.state.processorRef = true
    rw [href]
    exact h.initialized ⟨k, hk⟩

/-! ## Hand-overs -/

theorem countP_readies (k : Pubkey) (fresh : List ReadyThread) :
    (fresh.map ProcessorMessage.processReady).countP (ProcessorMessage.readies k) =
      (fresh.map ReadyThread.threadPubkey).count k := by
  induction fresh with
  | nil => rfl
  | cons ready fresh ih =>
    simp only [List.map_cons, List.countP_cons, List.count_cons, ih, ProcessorMessage.readies]
    simp

theorem foldl_recall (fresh : List ReadyThread) (recalled : Finset Pubkey) (k : Pubkey) :
    k ∈ (fresh.map fun r => Effect.sent (.processReady r)).foldl Effect.recall recalled ↔
      k ∈ recalled ∧ k ∉ fresh.map ReadyThread.threadPubkey := by
  induction fresh generalizing recalled with
  | nil => simp
  | cons ready fresh ih =>
    rw [List.map_cons, List.foldl_cons, ih, List.map_cons, List.mem_cons, Effect.recall,
      Finset.mem_erase]
    tauto

/-- Threads that are not outstanding are handed over. -/
theorem InStep.handOver {n : ℕ} {s : System e Q} (h : InStep n s) {a : StagingActor e Q}
    {refetched : List Effect} {fresh : List ReadyThread}
    (hsilent : ∀ message, .sent message ∉ refetched)
    (hnodup : (fresh.map ReadyThread.threadPubkey).Nodup)
    (hfree : ∀ k ∈ fresh.map ReadyThread.threadPubkey, s.outstanding k = 0)
    (hqueued : ∀ k, k ∈ a.state.queuedThreads ↔
      k ∈ s.staging.queuedThreads ∨ k ∈ fresh.map ReadyThread.threadPubkey)
    (href : a.state.processorRef = s.staging.processorRef)
    (hinitialized : fresh ≠ [] → s.staging.processorRef = true) :
    InStep n (s.after a (refetched ++ fresh.map fun r => .sent (.processReady r))) := by
  obtain ⟨hnone, hrecalled⟩ := Effect.silent hsilent s.recalled
  have hsent : (refetched ++ fresh.map fun r => Effect.sent (.processReady r)).filterMap
      Effect.message = fresh.map ProcessorMessage.processReady := by
    rw [List.filterMap_append, hnone, List.nil_append, List.filterMap_map]
    exact List.filterMap_eq_map ▸ rfl
  generalize htrace : (refetched ++ fresh.map fun r => Effect.sent (.processReady r)) = effects
    at hsent ⊢
  refine ⟨fun k => ?_, ?_, ?_, ?_, h.running, ⟨h.balanced.owed, h.balanced.permits⟩⟩
  · have hmore : (s.after a effects).outstanding k =
        s.outstanding k + (fresh.map ReadyThread.threadPubkey).count k := by
      rw [after_outstanding, hsent, countP_readies]
    have hforgotten : k ∈ (s.after a effects).recalled ↔
        k ∈ s.recalled ∧ k ∉ fresh.map ReadyThread.threadPubkey := by
      show k ∈ effects.foldl Effect.recall s.recalled ↔ _
      rw [← htrace, List.foldl_append, hrecalled, foldl_recall]
    have hmember : k ∈ (s.after a effects).staging.queuedThreads ↔
        k ∈ s.staging.queuedThreads ∨ k ∈ fresh.map ReadyThread.threadPubkey := hqueued k
    have hold := h.agreement k
    rw [InAgreement] at hold
    rw [InAgreement, hmore, hforgotten, hmember]
    by_cases hk : k ∈ fresh.map ReadyThread.threadPubkey
    · have hzero := hfree k hk
      have hone := List.count_eq_one_of_mem hnodup hk
      rw [hzero, hone]
      simp [hk]
    · rw [List.count_eq_zero_of_not_mem hk]
      simpa [hk] using hold
  · intro k hk before later hinbox
    have hnew : ProcessorMessage.cancelThread k ∉ effects.filterMap Effect.message := by
      rw [hsent]
      simp
    obtain ⟨rest, hrest, rfl⟩ := append_split hinbox hnew
    rcases (hqueued k).mp hk with hold | hover
    · obtain ⟨message, hmessage, hreadies⟩ := h.order k hold before rest hrest
      exact ⟨message, List.mem_append_left _ hmessage, hreadies⟩
    · obtain ⟨ready, hready, hkey⟩ := List.mem_map.mp hover
      refine ⟨.processReady ready, List.mem_append_right _ ?_, decide_eq_true hkey⟩
      rw [hsent]
      exact List.mem_map_of_mem hready
  · intro message hmessage
    rcases List.mem_append.mp hmessage with hold | hnew
    · exact h.sent message hold
    · rw [hsent] at hnew
      obtain ⟨ready, -, rfl⟩ := List.mem_map.mp hnew
      exact Or.inl ⟨ready, rfl⟩
  · intro hnonempty
    show a.state.processorRef = true
    rw [href]
    obtain ⟨k, hk⟩ := hnonempty
    rcases (hqueued k).mp hk with hold | hover
    · exact h.initialized ⟨k, hold⟩
    · exact hinitialized fun hnil => by simp [hnil] at hover

/-- A thread comes back. -/
theorem InStep.completed {n : ℕ} {s : System e Q} (h : InStep n s) {a : StagingActor e Q}
    {k : Pubkey} {reason : CompletionReason} {rest : List StagingMessage}
    (hmessages : s.pool.staging.messages = .threadCompleted k reason :: rest)
    (hqueued : a.state.queuedThreads = s.staging.queuedThreads.erase k)
    (href : a.state.processorRef = s.staging.processorRef) :
    InStep n ((s.received rest).after a []) := by
  have hmember : ∀ k', k' ∈ ((s.received rest).after a []).staging.queuedThreads ↔
      k' ≠ k ∧ k' ∈ s.staging.queuedThreads := by
    intro k'
    show k' ∈ a.state.queuedThreads ↔ _
    rw [hqueued, Finset.mem_erase]
  have hless : ∀ k', s.outstanding k' = ((s.received rest).after a []).outstanding k' +
      if k = k' then 1 else 0 := by
    intro k'
    rw [after_outstanding]
    simp only [outstanding, received, Pool.carried, hmessages, List.countP_cons,
      List.filterMap_nil, List.countP_nil, StagingMessage.completes, decide_eq_true_eq]
    omega
  have hinbox : ((s.received rest).after a []).inbox = s.inbox := List.append_nil _
  refine ⟨fun k' => ?_, fun k' hk' => ?_, ?_, fun hnonempty => ?_, h.running,
    ⟨h.balanced.owed, h.balanced.permits⟩⟩
  · have hold := h.agreement k'
    have hsame : k' ∈ ((s.received rest).after a []).recalled ↔ k' ∈ s.recalled := Iff.rfl
    rw [InAgreement, hless k'] at hold
    rw [InAgreement, hmember, hsame]
    by_cases hk : k = k'
    · rw [if_pos hk] at hold
      have hzero : ((s.received rest).after a []).outstanding k' = 0 := by omega
      simp [hzero, hk]
    · rw [if_neg hk, Nat.add_zero] at hold
      simpa [Ne.symm hk] using hold
  · rw [hinbox]
    exact h.order k' ((hmember k').mp hk').2
  · rw [hinbox]
    exact h.sent
  · obtain ⟨k', hk'⟩ := hnonempty
    show a.state.processorRef = true
    rw [href]
    exact h.initialized ⟨k', ((hmember k').mp hk').2⟩

/-! ## Steps of the processor -/

/-- The processor handles the oldest message, if a worker it spawns finds its name free. -/
theorem InStep.processed {n : ℕ} {s : System e Q} (h : InStep n s) {rpc : AccountCache.Rpc}
    {message : ProcessorMessage} {gone : Finset Pubkey} {rest : List ProcessorMessage}
    (hinbox : s.inbox = message :: rest)
    (hsucceeds : Pool.SpawnsSucceed s.pool (.message rpc message gone))
    (hbalanced : Pool.Balanced n (s.pool.handled rpc message gone)) :
    InStep n { s with pool := s.pool.handled rpc message gone, inbox := rest } := by
  have hrunning := (Pool.handled_running rpc s.pool message gone).trans h.running
  have horder : ∀ k ∈ s.staging.queuedThreads, ∀ before later,
      rest = before ++ .cancelThread k :: later → ∃ message ∈ later, message.readies k = true := by
    intro k hk before later hrest
    exact h.order k hk (message :: before) later (by rw [hinbox, hrest]; rfl)
  have hsent : ∀ message ∈ rest,
      (∃ ready, message = .processReady ready) ∨ ∃ k, message = .cancelThread k :=
    fun m hm => h.sent m (by rw [hinbox]; exact List.mem_cons_of_mem _ hm)
  refine ⟨fun k => ?_, horder, hsent, h.initialized, hrunning, hbalanced⟩
  have hold := h.agreement k
  rw [InAgreement, outstanding, hinbox, List.countP_cons] at hold
  rcases h.sent message (by rw [hinbox]; exact List.mem_cons_self) with ⟨ready, rfl⟩ | ⟨k', rfl⟩
  · have hmoved := Pool.processReady_carried h.running hsucceeds k
    have hsame : outstanding { s with
        pool := s.pool.handled rpc (.processReady ready) gone, inbox := rest } k =
        rest.countP (ProcessorMessage.readies k) +
          (if ProcessorMessage.readies k (.processReady ready) = true then 1 else 0) +
          s.pool.carried k := by
      rw [outstanding, hmoved]
      simp only [ProcessorMessage.readies, decide_eq_true_eq]
      omega
    rw [InAgreement, hsame]
    exact hold
  · simp only [ProcessorMessage.readies, Bool.false_eq_true, if_false, Nat.add_zero] at hold
    rw [InAgreement, outstanding]
    by_cases hk : k = k'
    · have hdropped := Pool.cancelThread_carried rpc s.pool gone k'
      rw [← hk] at hdropped ⊢
      dsimp only
      by_cases hqueued : k ∈ s.staging.queuedThreads
      · obtain ⟨m, hm, hreadies⟩ := h.order k hqueued [] rest (by rw [hinbox, hk]; rfl)
        have hwaiting : 0 < rest.countP (ProcessorMessage.readies k) :=
          List.countP_pos_iff.mpr ⟨m, hm, hreadies⟩
        have hnone : s.pool.processor.pendingQueue.countP
            (fun ready => ready.threadPubkey = k) ≤ s.pool.carried k := by
          rw [Pool.carried]
          omega
        have hsame : (s.pool.handled rpc (.cancelThread k) gone).carried k = s.pool.carried k := by
          omega
        rw [hsame]
        exact hold
      · constructor
        · refine ⟨fun hmem => absurd hmem hqueued, fun hone => ?_⟩
          refine absurd (hold.1.mpr ⟨?_, hone.2⟩) hqueued
          omega
        · omega
    · have hsame := Pool.cancelThread_carried_of_ne rpc s.pool gone hk
      dsimp only
      rw [hsame]
      exact hold

variable [MinHeap Q ScheduledThread.triggerValue]

/-- Staging sends every cancellation it means to send, and forgets no thread in flight: none is
deleted, and no refetch of one fails. A thread that a tick hands over is not outstanding. Every
worker that is spawned finds its name free. -/
def Coherent (s : System e Q) : SystemEvent → Prop
  | .arrives _ accepts (.accountUpdate update) =>
    accepts update.pubkey = true ∧
      (classifyAccount e update.data update.pubkey = .deleted →
        update.pubkey ∉ s.staging.queuedThreads)
  | .arrives rpc accepts (.clockTick clock) =>
    s.staging.lastProcessedSlot < clock.slot →
      (∀ k ∈ s.staging.queuedThreads, .untracks k ∉ (s.actor.prepareTick rpc clock).2) ∧
      ∀ k, (s.actor.prepareTick rpc clock).1.state.Ready clock k →
        k ∉ s.staging.queuedThreads → s.staging.processorRef = true → accepts k = true →
        s.outstanding k = 0
  | .processes rpc gone =>
    ∀ message rest, s.inbox = message :: rest →
      Pool.SpawnsSucceed s.pool (.message rpc message gone)
  | .reports rpc result gone =>
    Pool.SpawnsSucceed s.pool (.message rpc (.workerCompleted result) gone)
  | _ => True

theorem InStep.updated {n : ℕ} {s : System e Q} (h : InStep n s) {accepts : Pubkey → Bool}
    {update : AccountUpdate} (haccepts : accepts update.pubkey = true)
    (hdeleted : classifyAccount e update.data update.pubkey = .deleted →
      update.pubkey ∉ s.staging.queuedThreads) :
    InStep n (s.after
      { s.actor with state := (s.staging.handleAccountUpdate e accepts update).1 }
      (s.staging.handleAccountUpdate e accepts update).2) := by
  unfold StagingState.handleAccountUpdate
  cases hclass : classifyAccount e update.data update.pubkey with
  | clock => exact h.silent (by simp) rfl id
  | other => exact h.silent (by simp) rfl id
  | deleted => exact h.silent (by simp) (Finset.erase_eq_of_notMem (hdeleted hclass)) id
  | thread t =>
    dsimp only
    rcases StagingState.updateThread_cases accepts s.staging update.pubkey t with ⟨-, heq⟩ |
      ⟨-, hcancels, heq⟩ | ⟨-, -, heq⟩
    · rw [heq]
      exact h.silent (by simp) rfl id
    · have hinitialized := h.initialized ⟨_, hcancels.1⟩
      rw [heq, if_pos ⟨hinitialized, haccepts⟩]
      exact h.cancel hcancels.1 (StagingState.track_queuedThreads _ _ t)
        (StagingState.track_processorRef _ _ t)
    · rw [heq]
      refine h.silent (by simp) (StagingState.track_queuedThreads _ _ t) fun href => ?_
      exact (StagingState.track_processorRef _ _ t).trans href

theorem InStep.ticked {n : ℕ} {s : System e Q} (h : InStep n s) {rpc : ℕ → AccountCache.Rpc}
    {accepts : Pubkey → Bool} {clock : Clock}
    (hcoherent : s.Coherent (.arrives rpc accepts (.clockTick clock))) :
    InStep n (s.after (s.actor.handleClockTick rpc accepts clock).1
      (s.actor.handleClockTick rpc accepts clock).2) := by
  rcases le_or_gt clock.slot s.staging.lastProcessedSlot with hstale | hfresh
  · rw [StagingActor.handleClockTick_of_le rpc accepts hstale]
    exact h.silent (by simp) rfl id
  · obtain ⟨hrefetched, hready⟩ := hcoherent hfresh
    obtain ⟨hqueued, href⟩ := StagingActor.prepareTick_queuedThreads (a := s.actor) hrefetched
    have hmem : ∀ k, k ∈ ((s.actor.prepareTick rpc clock).1.state.handedOver accepts clock).map
        ReadyThread.threadPubkey ↔ (s.actor.prepareTick rpc clock).1.state.Ready clock k ∧
          k ∉ s.staging.queuedThreads ∧ s.staging.processorRef = true ∧ accepts k = true := by
      intro k
      rw [StagingState.mem_handedOver, hqueued, href]
      rfl
    rw [StagingActor.handleClockTick_of_lt rpc accepts hfresh]
    refine h.handOver (StagingActor.sent_notMem_processEvictions rpc _ _)
      (StagingState.handedOver_nodup accepts _ clock) (fun k hk => ?_) (fun k => ?_) href
      fun hne => ?_
    · obtain ⟨hk, hnew, hset, haccepts⟩ := (hmem k).mp hk
      exact hready k hk hnew hset haccepts
    · rw [StagingState.mem_checked_queuedThreads, hmem, hqueued, href]
      show k ∈ s.staging.queuedThreads ∨ _ ↔ k ∈ s.staging.queuedThreads ∨ _
      have hsame : s.actor.state.processorRef = s.staging.processorRef := rfl
      rw [hsame]
      tauto
    · obtain ⟨ready, hmember⟩ := List.exists_mem_of_ne_nil _ hne
      exact ((hmem _).mp (List.mem_map_of_mem hmember)).2.2.1

/-- The step lemma. -/
theorem inStep_step {n : ℕ} {s t : System e Q} {ev : SystemEvent} (h : InStep n s)
    (hstep : Guarded Step Coherent s ev t) : InStep n t := by
  obtain ⟨hcoherent, hstep⟩ := hstep
  cases ev with
  | caches key data slot =>
    obtain rfl := Option.some.inj hstep
    exact h.of_same rfl id rfl rfl (fun _ => rfl) h.running
      ⟨h.balanced.owed, h.balanced.permits⟩
  | evicts key =>
    obtain rfl := Option.some.inj hstep
    exact h.of_same rfl id rfl rfl (fun _ => rfl) h.running
      ⟨h.balanced.owed, h.balanced.permits⟩
  | expires key =>
    obtain ⟨-, rfl⟩ := step_expires hstep
    exact h.of_same rfl id rfl rfl (fun _ => rfl) h.running
      ⟨h.balanced.owed, h.balanced.permits⟩
  | terminates k =>
    obtain ⟨-, rfl⟩ := step_terminates hstep
    exact h.of_same rfl id rfl rfl (fun _ => rfl) h.running
      ⟨h.balanced.owed, h.balanced.permits⟩
  | processes rpc gone =>
    obtain ⟨message, rest, hinbox, hpool, rfl⟩ := step_processes hstep
    have hsucceeds := hcoherent message rest hinbox
    refine h.processed hinbox hsucceeds (h.balanced.step ⟨⟨?_, hsucceeds⟩, hpool⟩)
    rcases h.sent message (by rw [hinbox]; exact List.mem_cons_self) with ⟨ready, rfl⟩ | ⟨k, rfl⟩
    · exact trivial
    · exact trivial
  | reports rpc result gone =>
    obtain ⟨howed, hpool, rfl⟩ := step_reports hstep
    have hactive : result.threadPubkey ∈ s.pool.processor.activeWorkers := by
      rw [h.balanced.owed] at howed
      exact howed
    have honce : Pool.ReportsOnce s.pool (.message rpc (.workerCompleted result) gone) := howed
    exact h.of_same rfl id rfl rfl
      (fun k => Pool.workerCompleted_carried h.running hactive hcoherent k)
      ((Pool.handled_running rpc s.pool _ gone).trans h.running)
      (h.balanced.step ⟨⟨honce, hcoherent⟩, hpool⟩)
  | answers =>
    obtain ⟨k, reason, rest, hmessages, rfl⟩ := step_answers hstep
    rcases s.actor.threadCompleted_cases k reason with ⟨-, heq⟩ | ⟨t, -, -, heq⟩
    · rw [heq]
      exact h.completed hmessages rfl rfl
    · rw [heq]
      exact h.completed hmessages (StagingState.scheduleThread_queuedThreads _ k t)
        (StagingState.scheduleThread_processorRef _ k t)
  | arrives rpc accepts message =>
    obtain ⟨a, effects, hhandled, rfl, hnot⟩ := step_arrives hstep
    cases message with
    | shutdown => exact absurd hhandled (by simp [StagingActor.handle])
    | threadCompleted k reason => exact absurd rfl (hnot k reason)
    | queryStatus =>
      obtain ⟨rfl, rfl⟩ := Prod.mk.inj (Option.some.inj hhandled)
      exact h.silent (by simp) rfl id
    | setProcessorRef =>
      obtain ⟨rfl, rfl⟩ := Prod.mk.inj (Option.some.inj hhandled)
      exact h.silent (by simp) rfl fun _ => rfl
    | accountUpdate update =>
      obtain ⟨rfl, rfl⟩ := Prod.mk.inj (Option.some.inj hhandled)
      exact h.updated hcoherent.1 hcoherent.2
    | clockTick clock =>
      have hticked := Option.some.inj hhandled
      have hinStep := h.ticked hcoherent
      rw [show s.actor.handleClockTick rpc accepts clock = (a, effects) from hticked] at hinStep
      exact hinStep

/-- In every coherent run staging and processor agree on the threads in flight. -/
theorem in_flight_agreement {cache : AccountCache e} {n : ℕ} {events : List SystemEvent}
    {s : System e Q} (h : Run (Guarded Step Coherent) (start cache n) events s) (k : Pubkey) :
    (k ∈ s.staging.queuedThreads ↔ s.outstanding k = 1 ∧ k ∉ s.recalled) ∧
      s.outstanding k ≤ 1 := by
  have hinStep : InStep n s :=
    h.invariant (fun u ev u' hu hstep => inStep_step hu hstep) (inStep_start cache n)
  exact hinStep.agreement k

/-! ## A thread whose schedule moves -/

/-- Thread 1 is found, and a tick comes after its moment. -/
def handOver : List SystemEvent :=
  [sampleArrival .setProcessorRef, sampleArrival (.accountUpdate (sampleUpdate 1 0 0 10 0 1)),
    sampleArrival (.clockTick ⟨1, 0, 20⟩)]

theorem handed_over_once :
    ∃ s : System stagingEnv SampleQueue, Run (Guarded Step Coherent) (start (fun _ => none) 2)
        handOver s ∧ 1 ∈ s.staging.queuedThreads ∧
      (1 ∈ s.staging.queuedThreads ↔ s.outstanding 1 = 1 ∧ 1 ∉ s.recalled) ∧
      s.outstanding 1 ≤ 1 := by
  have hrun : ∃ s : System stagingEnv SampleQueue, 1 ∈ s.staging.queuedThreads ∧
      Run (Guarded Step Coherent) (start (fun _ => none) 2) handOver s := by
    refine ⟨_, ?_, Run.cons ⟨trivial, rfl⟩ (Run.cons ⟨⟨rfl, fun hdeleted => ?_⟩, rfl⟩
      (Run.cons ⟨fun _ => ⟨fun k hk => ?_, fun k _ _ _ _ => rfl⟩, rfl⟩ (Run.nil _)))⟩
    · decide +kernel
    · exact absurd hdeleted (by decide +kernel)
    · exact absurd hk (Finset.notMem_empty k)
  obtain ⟨s, hqueued, hguarded⟩ := hrun
  exact ⟨s, hguarded, hqueued, in_flight_agreement hguarded 1⟩

/-- Thread 1 is with its worker when its schedule moves from second 10 to second 15, and the
next tick comes at second 21. -/
def movedInFlight : List SystemEvent :=
  .caches 1 (sampleUpdate 1 0 0 10 0 1).data 1 :: handOver ++
    [.processes Pool.silentRpc ∅, sampleArrival (.accountUpdate (sampleUpdate 1 0 0 15 0 2)),
      sampleArrival (.clockTick ⟨2, 0, 21⟩)]

/-- The thread is handed over again while its first worker is still active. -/
theorem moved_thread_is_handed_over_twice :
    ∃ s : System stagingEnv SampleQueue, Run Step (start (fun _ => none) 2) movedInFlight s ∧
      1 ∈ s.pool.processor.activeWorkers ∧ s.outstanding 1 = 2 ∧
      ¬ ((1 ∈ s.staging.queuedThreads ↔ s.outstanding 1 = 1 ∧ 1 ∉ s.recalled) ∧
        s.outstanding 1 ≤ 1) := by
  have hevaluated : ∃ s ∈ movedInFlight.foldlM step
      (start (fun _ => none) 2 : System stagingEnv SampleQueue),
      1 ∈ s.pool.processor.activeWorkers ∧ s.outstanding 1 = 2 := by
    decide +kernel
  obtain ⟨s, hs, hactive, htwo⟩ := hevaluated
  have hrun : Run (Guarded Step fun _ _ => True) (start (fun _ => none) 2) movedInFlight s :=
    Run.of_forall (fun _ _ => trivial) hs
  refine ⟨s, hrun.mono fun _ _ _ hstep => hstep.2, hactive, htwo, fun h => ?_⟩
  have hle := h.2
  omega

end System

end Antegen.Client
