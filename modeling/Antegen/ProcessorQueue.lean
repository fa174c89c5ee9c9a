import Antegen.Processor

/-!
# The queue of the processor

Two things that the queue can do to the processor. A thread can be dispatched again
while its worker is still there. The entry then waits behind the guard against a second
worker, and the report of the worker that opens the guard also takes the next entry from
the queue: if it is the waiting one, its name is not free yet and the processor fails.
And each message takes at most one entry from the queue. If that entry starts no
worker, the entries behind it wait for the next message, with permits to spare.
-/
namespace Antegen.Client.Pool

open Transition

variable {e : CacheEnv}

/-! ## Names of workers -/

/-- A thread is not dispatched while an actor that has reported for it is still there, nor is
an entry for it waiting when that actor reports. -/
def NameReleased (p : Pool e) : PoolEvent e → Prop
  | .message _ (.processReady ready) gone =>
      ready.threadPubkey ∈ p.registered \ gone →
        ready.threadPubkey ∈ p.processor.activeWorkers
  | .message _ (.workerCompleted result) gone =>
      result.threadPubkey ∈ p.registered \ gone →
        ∀ ready ∈ p.processor.pendingQueue, ready.threadPubkey ≠ result.threadPubkey
  | _ => True

/-- An entry for a thread with a worker actor waits for a worker that has yet to report. -/
def QueueWaits (p : Pool e) : Prop :=
  ∀ ready ∈ p.processor.pendingQueue, ready.threadPubkey ∈ p.registered →
    ready.threadPubkey ∈ p.processor.activeWorkers

/-- The step lemma for `try_spawn_next_worker`. -/
theorem trySpawn_queueWaits (rpc : AccountCache.Rpc) {p : Pool e} {gone : Finset Pubkey}
    (h : QueueWaits (p.without gone)) :
    (∀ spawned ∈ (trySpawnNextWorker rpc p).2,
        spawned.1.threadPubkey ∉ p.registered \ gone) ∧
      QueueWaits (finish gone (trySpawnNextWorker rpc p)) ∧
      (finish gone (trySpawnNextWorker rpc p)).failed = p.failed := by
  rcases trySpawnNextWorker_cases rpc p with ⟨-, heq⟩ | ⟨-, heq⟩ |
    ⟨r, rest, -, hqueue, -, heq⟩ | ⟨r, rest, -, hqueue, -, -, heq⟩ |
    ⟨r, rest, t, -, hqueue, hactive, -, heq⟩
  · rw [heq]
    exact ⟨by simp, h, rfl⟩
  · rw [heq]
    exact ⟨by simp, h, rfl⟩
  · rw [heq]
    refine ⟨by simp, fun ready hready => h ready ?_, rfl⟩
    show ready ∈ p.processor.pendingQueue
    have hmem : ready ∈ rest ++ [r] := hready
    rw [hqueue]
    simpa [or_comm] using hmem
  · rw [heq]
    refine ⟨by simp, fun ready hready => h ready ?_, rfl⟩
    show ready ∈ p.processor.pendingQueue
    rw [hqueue]
    exact List.mem_cons_of_mem _ hready
  · have hfree : r.threadPubkey ∉ p.registered \ gone := by
      intro htaken
      refine hactive (h r ?_ htaken)
      show r ∈ p.processor.pendingQueue
      rw [hqueue]
      exact List.mem_cons_self
    rw [heq]
    refine ⟨?_, ?_, ?_⟩
    · intro spawned hspawned
      obtain rfl := Option.some.inj hspawned
      exact hfree
    · rw [finish, spawn_of_free hfree]
      intro ready hready htaken
      rcases Finset.mem_insert.mp htaken with hsame | hold
      · rw [hsame]
        exact Finset.mem_insert_self _ _
      · refine Finset.mem_insert_of_mem (h ready ?_ hold)
        show ready ∈ p.processor.pendingQueue
        rw [hqueue]
        exact List.mem_cons_of_mem _ hready
    · rw [finish, spawn_of_free hfree]
      rfl

/-- What a message that meets the condition leaves. -/
theorem handled_queueWaits {p : Pool e} (h : QueueWaits p) {rpc : AccountCache.Rpc}
    {message : ProcessorMessage} {gone : Finset Pubkey}
    (hreleased : NameReleased p (.message rpc message gone)) :
    SpawnsSucceed p (.message rpc message gone) ∧ QueueWaits (p.handled rpc message gone) ∧
      ∀ thread, (p.handled rpc message gone).failed = some (.spawnWorker thread) →
        p.failed = some (.spawnWorker thread) := by
  have hfewer : QueueWaits (p.without gone) :=
    fun ready hready htaken => h ready hready (Finset.mem_sdiff.mp htaken).1
  cases message with
  | processReady r =>
    have hwaits : QueueWaits ((p.enqueued r).without gone) := by
      intro ready hready htaken
      rcases List.mem_append.mp hready with hold | hnew
      · exact hfewer ready hold htaken
      · rw [List.mem_singleton.mp hnew] at htaken ⊢
        exact hreleased htaken
    obtain ⟨hspawns, hafter, hfailed⟩ := trySpawn_queueWaits rpc hwaits
    exact ⟨hspawns, hafter, fun thread hthread => hfailed.symm.trans hthread⟩
  | cancelThread threadPubkey =>
    refine ⟨by simp [SpawnsSucceed, handle], ?_, fun thread hthread => hthread⟩
    intro ready hready htaken
    exact hfewer ready (List.mem_filter.mp hready).1 htaken
  | queryStatus => exact ⟨by simp [SpawnsSucceed, handle], hfewer, fun thread hthread => hthread⟩
  | shutdown =>
    refine ⟨by simp [SpawnsSucceed, handle], hfewer, fun thread hthread => ?_⟩
    exact absurd (Option.some.inj hthread) (by simp)
  | workerCompleted result =>
    have hreported : QueueWaits ((p.reported result.threadPubkey).without gone) := by
      intro ready hready htaken
      refine Finset.mem_erase.mpr ⟨fun hsame => ?_, hfewer ready hready htaken⟩
      exact hreleased (hsame ▸ htaken) ready hready hsame
    rcases handle_workerCompleted rpc p result with ⟨-, heq⟩ | ⟨-, heq⟩
    · rw [SpawnsSucceed, handled, heq]
      refine ⟨by simp, hreported, fun thread hthread => ?_⟩
      exact absurd (Option.some.inj hthread) (by simp)
    · obtain ⟨hspawns, hafter, hfailed⟩ :=
        trySpawn_queueWaits rpc (p := p.answered result) hreported
      rw [SpawnsSucceed, handled, heq]
      exact ⟨hspawns, hafter, fun thread hthread => hfailed.symm.trans hthread⟩

theorem QueueWaits.step {p p' : Pool e} {ev : PoolEvent e} (h : QueueWaits p)
    (hstep : Guarded Step NameReleased p ev p') : QueueWaits p' ∧
      ∀ thread, p'.failed = some (.spawnWorker thread) →
        p.failed = some (.spawnWorker thread) := by
  obtain ⟨hreleased, hstep⟩ := hstep
  cases ev with
  | message rpc message gone =>
    obtain ⟨-, rfl⟩ := step_message hstep
    exact (handled_queueWaits h hreleased).2
  | terminated threadPubkey =>
    obtain rfl := step_terminated hstep
    refine ⟨fun ready hready htaken => ?_, fun thread hthread => hthread⟩
    exact h ready hready (Finset.mem_sdiff.mp htaken).1
  | elsewhere cache staging =>
    obtain rfl := step_elsewhere hstep
    exact ⟨h, fun thread hthread => hthread⟩

/-- On every run on which no thread is dispatched, and no entry for it waits, while an actor
that has reported for it is still there: every worker is spawned under a free name, and
the processor never fails by a spawn. -/
theorem worker_names_are_free {cache : AccountCache e} {staging : Mailbox StagingMessage} {n : ℕ}
    {events : List (PoolEvent e)} {p : Pool e}
    (h : Run (Guarded Step NameReleased) (start cache staging n) events p) :
    (∀ ev, NameReleased p ev → SpawnsSucceed p ev) ∧
      ∀ thread, p.failed ≠ some (.spawnWorker thread) := by
  have hinv : QueueWaits p ∧ ∀ thread, p.failed ≠ some (.spawnWorker thread) := by
    refine h.invariant (I := fun p => QueueWaits p ∧
      ∀ thread, p.failed ≠ some (.spawnWorker thread)) (fun u ev u' hu hstep => ?_) ?_
    · obtain ⟨hwaits, hfailed⟩ := hu.1.step hstep
      exact ⟨hwaits, fun thread hthread => hu.2 thread (hfailed thread hthread)⟩
    · exact ⟨by simp [QueueWaits, start], by simp [start]⟩
  refine ⟨fun ev hreleased => ?_, hinv.2⟩
  cases ev with
  | message rpc message gone => exact (handled_queueWaits hinv.1 hreleased).1
  | terminated threadPubkey => trivial
  | elsewhere cache staging => trivial

/-- Thread 1 is dispatched, cancelled and dispatched again before its worker reports. -/
def redispatch : List (PoolEvent AccountCache.threadEnv) :=
  [.message silentRpc (.processReady (sampleReady 1)) ∅,
    .message silentRpc (.cancelThread 1) ∅,
    .message silentRpc (.processReady (sampleReady 1)) ∅,
    .message silentRpc (.workerCompleted (sampleSuccess 1)) ∅]

instance (p : Pool e) (ev : PoolEvent e) : Decidable (NameReleased p ev) :=
  match ev with
  | .message _ (.processReady ready) gone =>
    inferInstanceAs (Decidable (ready.threadPubkey ∈ p.registered \ gone →
      ready.threadPubkey ∈ p.processor.activeWorkers))
  | .message _ (.workerCompleted result) gone =>
    have := List.decidableBAll (fun ready : ReadyThread => ready.threadPubkey ≠ result.threadPubkey)
      p.processor.pendingQueue
    inferInstanceAs (Decidable (result.threadPubkey ∈ p.registered \ gone →
      ∀ ready ∈ p.processor.pendingQueue, ready.threadPubkey ≠ result.threadPubkey))
  | .message _ (.cancelThread _) _ => .isTrue trivial
  | .message _ .queryStatus _ => .isTrue trivial
  | .message _ .shutdown _ => .isTrue trivial
  | .terminated _ => .isTrue trivial
  | .elsewhere _ _ => .isTrue trivial

/-- The report of the first worker makes the processor spawn the second one under the same
name, while the first actor has not terminated: the spawn fails and the processor with it. -/
theorem respawn_takes_processor_down :
    ∃ p, Run (Guarded Step ReportsOnce) (samplePool [1] 2) redispatch p ∧
      p.failed = some (.spawnWorker 1) := by
  have hevaluated : (redispatch.foldlM
      (fun p ev => if ReportsOnce p ev then step p ev else none) (samplePool [1] 2)).map
        (fun p => p.failed) = some (some (.spawnWorker 1)) := by
    decide +kernel
  obtain ⟨p, hp, hfailed⟩ := Option.map_eq_some_iff.mp hevaluated
  exact ⟨p, Run.of_foldlM hp, hfailed⟩

/-- Thread 1 is dispatched again once its actor has terminated. -/
def patientRedispatch : List (PoolEvent AccountCache.threadEnv) :=
  [.message silentRpc (.processReady (sampleReady 1)) ∅,
    .message silentRpc (.workerCompleted (sampleSuccess 1)) ∅,
    .terminated 1,
    .message silentRpc (.processReady (sampleReady 1)) ∅]

theorem respawn_after_termination :
    ∃ p, Run (Guarded Step NameReleased) (samplePool [1] 2) patientRedispatch p ∧
      p.processor.activeWorkers = {1} ∧ ∀ thread, p.failed ≠ some (.spawnWorker thread) := by
  have hevaluated : (patientRedispatch.foldlM
      (fun p ev => if NameReleased p ev then step p ev else none) (samplePool [1] 2)).map
        (fun p => p.processor.activeWorkers) = some {1} := by
    decide +kernel
  obtain ⟨p, hp, hactive⟩ := Option.map_eq_some_iff.mp hevaluated
  have hrun := Run.of_foldlM hp
  exact ⟨p, hrun, hactive, (worker_names_are_free hrun).2⟩

/-! ## Entries that wait beside free permits -/

/-- No permit is free, or every entry is for a thread that has a worker. -/
def NeverIdles (p : Pool e) : Prop :=
  p.processor.availablePermits = 0 ∨
    ∀ ready ∈ p.processor.pendingQueue, ready.threadPubkey ∈ p.processor.activeWorkers

/-- The first entry gets a worker once the worker of a thread has reported. -/
def FrontSpawns (rpc : AccountCache.Rpc) (p : Pool e) (active : Finset Pubkey)
    (ready : ReadyThread) : Prop :=
  ready.threadPubkey ∉ active ∧ (lookup rpc p.cache ready).1.isSome

/-- The one entry that a message takes from the queue is the only one that could get a
worker. A new entry finds no permit, or no queue, or a worker of its own thread. On a
report, the first entry takes the permit and the other entries have no use for one, or
the first entry gets no worker and no other one could. -/
def OneIsEnough (p : Pool e) : PoolEvent e → Prop
  | .message _ (.processReady ready) _ =>
      p.processor.availablePermits = 0 ∨ p.processor.pendingQueue = [] ∨
        ready.threadPubkey ∈ p.processor.activeWorkers
  | .message rpc (.workerCompleted result) _ =>
      ∀ first rest, p.processor.pendingQueue = first :: rest →
        let active := p.processor.activeWorkers.erase result.threadPubkey
        (FrontSpawns rpc p active first ∧ (p.processor.availablePermits = 0 ∨
            ∀ ready ∈ rest, ready.threadPubkey ∈ insert first.threadPubkey active)) ∨
          (¬ FrontSpawns rpc p active first ∧ ∀ ready ∈ rest, ready.threadPubkey ∈ active)
  | _ => True

/-- The handler returns without an error. -/
def OkStep (p : Pool e) (ev : PoolEvent e) (p' : Pool e) : Prop := Step p ev p' ∧ p'.failed = none

/-- The step lemma for `try_spawn_next_worker`. -/
theorem trySpawn_neverIdles_iff (rpc : AccountCache.Rpc) {p : Pool e} {gone : Finset Pubkey}
    (hok : (finish gone (trySpawnNextWorker rpc p)).failed = none) :
    NeverIdles (finish gone (trySpawnNextWorker rpc p)) ↔
      p.processor.availablePermits = 0 ∨ ∀ first rest, p.processor.pendingQueue = first :: rest →
        (FrontSpawns rpc p p.processor.activeWorkers first ∧
            (p.processor.availablePermits = 1 ∨ ∀ ready ∈ rest,
              ready.threadPubkey ∈ insert first.threadPubkey p.processor.activeWorkers)) ∨
          (¬ FrontSpawns rpc p p.processor.activeWorkers first ∧
            ∀ ready ∈ rest, ready.threadPubkey ∈ p.processor.activeWorkers) := by
  rcases trySpawnNextWorker_cases rpc p with ⟨hzero, heq⟩ | ⟨hnil, heq⟩ |
    ⟨r, rest, hpos, hqueue, hactive, heq⟩ | ⟨r, rest, hpos, hqueue, hactive, hlookup, heq⟩ |
    ⟨r, rest, t, hpos, hqueue, hactive, hlookup, heq⟩
  · rw [heq]
    exact iff_of_true (Or.inl hzero) (Or.inl hzero)
  · rw [heq]
    refine iff_of_true (Or.inr fun ready hready => ?_) (Or.inr fun first rest hqueue => ?_)
    · have hmem : ready ∈ p.processor.pendingQueue := hready
      rw [hnil] at hmem
      exact absurd hmem (by simp)
    · rw [hnil] at hqueue
      exact absurd hqueue (by simp)
  · have hfront : ¬ FrontSpawns rpc p p.processor.activeWorkers r := fun h => h.1 hactive
    rw [heq, hqueue]
    simp only [NeverIdles, finish, without, List.cons.injEq, and_imp, forall_apply_eq_imp_iff,
      forall_eq', hfront, false_and, not_false_eq_true, true_and, false_or]
    constructor
    · intro h
      refine h.imp_right fun hall ready hready => hall ready (List.mem_append_left _ hready)
    · intro h
      refine h.imp_right fun hall ready hready => ?_
      rcases List.mem_append.mp hready with hrest | hlast
      · exact hall ready hrest
      · rw [List.mem_singleton.mp hlast]
        exact hactive
  · have hfront : ¬ FrontSpawns rpc p p.processor.activeWorkers r := by
      intro h
      have hsome := h.2
      rw [hlookup] at hsome
      exact absurd hsome (by simp)
    rw [heq, hqueue]
    simp only [NeverIdles, finish, without, notify, List.cons.injEq, and_imp,
      forall_apply_eq_imp_iff, forall_eq', hfront, false_and, not_false_eq_true, true_and,
      false_or]
  · have hfront : FrontSpawns rpc p p.processor.activeWorkers r := ⟨hactive, by simp [hlookup]⟩
    have hfree : r.threadPubkey ∉ p.registered \ gone := by
      intro htaken
      rw [heq, finish, spawn_of_taken htaken] at hok
      exact absurd hok (by simp)
    rw [heq, finish, spawn_of_free hfree, hqueue]
    simp only [NeverIdles, without, List.cons.injEq, and_imp, forall_apply_eq_imp_iff, forall_eq',
      hfront, true_and, not_true_eq_false, false_and, or_false]
    have hone : p.processor.availablePermits - 1 = 0 ↔ p.processor.availablePermits = 1 := by
      omega
    have hzero : p.processor.availablePermits ≠ 0 := by omega
    simp only [hone, hzero, false_or]

/-- A new entry, behind a queue that nothing can be taken from. -/
theorem processReady_neverIdles_iff {p : Pool e} (h : NeverIdles p) {rpc : AccountCache.Rpc}
    {ready : ReadyThread} {gone : Finset Pubkey}
    (hok : (p.handled rpc (.processReady ready) gone).failed = none) :
    NeverIdles (p.handled rpc (.processReady ready) gone) ↔
      OneIsEnough p (.message rpc (.processReady ready) gone) := by
  refine (trySpawn_neverIdles_iff rpc (p := p.enqueued ready) hok).trans ?_
  show p.processor.availablePermits = 0 ∨ (∀ first rest, p.processor.pendingQueue ++ [ready] =
    first :: rest → _) ↔ _
  simp only [OneIsEnough]
  by_cases hzero : p.processor.availablePermits = 0
  · exact iff_of_true (Or.inl hzero) (Or.inl hzero)
  · have hactive := h.resolve_left hzero
    cases hqueue : p.processor.pendingQueue with
    | nil =>
      refine iff_of_true (Or.inr fun first rest hcons => ?_) (Or.inr (Or.inl rfl))
      obtain ⟨-, rfl⟩ := List.cons.inj hcons
      by_cases hfront : FrontSpawns rpc p p.processor.activeWorkers first
      · exact Or.inl ⟨hfront, Or.inr (by simp)⟩
      · exact Or.inr ⟨hfront, by simp⟩
    | cons first rest =>
      have hfirst : first.threadPubkey ∈ p.processor.activeWorkers :=
        hactive first (by rw [hqueue]; exact List.mem_cons_self)
      have hfront : ¬ FrontSpawns rpc p p.processor.activeWorkers first := fun hf => hf.1 hfirst
      constructor
      · intro hafter
        rcases (hafter.resolve_left hzero) first (rest ++ [ready]) rfl with hspawns | ⟨-, hall⟩
        · exact absurd hspawns.1 hfront
        · exact Or.inr (Or.inr (hall ready (by simp)))
      · intro hcond
        rcases hcond with hz | hnil | hready
        · exact absurd hz hzero
        · exact absurd hnil (by simp)
        · refine Or.inr fun first' rest' hcons => ?_
          obtain ⟨rfl, rfl⟩ := List.cons.inj hcons
          refine Or.inr ⟨hfront, fun x hx => ?_⟩
          rcases List.mem_append.mp hx with hrest | hlast
          · exact hactive x (by rw [hqueue]; exact List.mem_cons_of_mem _ hrest)
          · rw [List.mem_singleton.mp hlast]
            exact hready

/-- A report, with any queue. -/
theorem workerCompleted_neverIdles_iff {p : Pool e} {rpc : AccountCache.Rpc}
    {result : ExecutionResult} {gone : Finset Pubkey}
    (hok : (p.handled rpc (.workerCompleted result) gone).failed = none) :
    NeverIdles (p.handled rpc (.workerCompleted result) gone) ↔
      OneIsEnough p (.message rpc (.workerCompleted result) gone) := by
  rcases handle_workerCompleted rpc p result with ⟨-, heq⟩ | ⟨-, heq⟩
  · rw [handled, heq] at hok
    exact absurd hok (by simp [finish, without])
  · rw [handled, heq] at hok ⊢
    refine (trySpawn_neverIdles_iff rpc (p := p.answered result) hok).trans ?_
    have hpermits : (p.answered result).processor.availablePermits =
        p.processor.availablePermits + 1 := rfl
    have hzero : ¬ (p.processor.availablePermits + 1 = 0) := by omega
    have hone : p.processor.availablePermits + 1 = 1 ↔ p.processor.availablePermits = 0 := by
      omega
    simp only [hpermits, hzero, hone, false_or]
    rfl

theorem okStep_neverIdles_iff {p p' : Pool e} {ev : PoolEvent e} (h : NeverIdles p)
    (hstep : OkStep p ev p') : NeverIdles p' ↔ OneIsEnough p ev := by
  obtain ⟨hstep, hok⟩ := hstep
  cases ev with
  | terminated threadPubkey =>
    obtain rfl := step_terminated hstep
    exact iff_of_true h trivial
  | elsewhere cache staging =>
    obtain rfl := step_elsewhere hstep
    exact iff_of_true h trivial
  | message rpc message gone =>
    obtain ⟨-, rfl⟩ := step_message hstep
    cases message with
    | processReady ready => exact processReady_neverIdles_iff h hok
    | workerCompleted result => exact workerCompleted_neverIdles_iff hok
    | cancelThread threadPubkey =>
      refine iff_of_true (h.imp_right fun hall ready hready => ?_) trivial
      exact hall ready (List.mem_filter.mp hready).1
    | queryStatus => exact iff_of_true h trivial
    | shutdown => exact absurd hok (by simp [handled, handle, finish, without])

/-- The processor never idles along a run, for every cache and every order of messages, if
and only if with each message the one entry that it takes from the queue is enough. -/
theorem never_idles_iff {cache : AccountCache e} {staging : Mailbox StagingMessage} {n : ℕ}
    {events : List (PoolEvent e)} {p : Pool e} :
    Run (fun p ev p' => OkStep p ev p' ∧ NeverIdles p') (start cache staging n) events p ↔
      Run (Guarded OkStep OneIsEnough) (start cache staging n) events p := by
  refine Run.kept_iff (fun u ev u' hu hstep => okStep_neverIdles_iff hu hstep) ?_
  exact Or.inr (by simp [start])

instance (p : Pool e) : Decidable (NeverIdles p) := by
  unfold NeverIdles
  infer_instance

/-- Thread 1 is dispatched a second time and waits; thread 2 is dispatched behind it. -/
def waitsBehind : List (PoolEvent AccountCache.threadEnv) :=
  [.message silentRpc (.processReady (sampleReady 1)) ∅,
    .message silentRpc (.cancelThread 1) ∅,
    .message silentRpc (.processReady (sampleReady 1)) ∅,
    .message silentRpc (.processReady (sampleReady 2)) ∅]

/-- The message for thread 2 is spent on the waiting entry for thread 1: a permit is free and
thread 2, which has no worker, stays in the queue. -/
theorem runnable_thread_is_left :
    ∃ p, Run (Guarded Step ReportsOnce) (samplePool [1, 2] 2) waitsBehind p ∧ p.failed = none ∧
      ¬ NeverIdles p := by
  have hevaluated : (waitsBehind.foldlM
      (fun p ev => if ReportsOnce p ev then step p ev else none) (samplePool [1, 2] 2)).map
        (fun p => (p.failed, decide (NeverIdles p))) = some (none, false) := by
    decide +kernel
  obtain ⟨p, hp, hfields⟩ := Option.map_eq_some_iff.mp hevaluated
  obtain ⟨hfailed, hidles⟩ := Prod.mk.inj hfields
  exact ⟨p, Run.of_foldlM hp, hfailed, of_decide_eq_false hidles⟩

end Antegen.Client.Pool
