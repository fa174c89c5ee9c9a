import Antegen.ChainResume
import Antegen.Worker

/-!
# A worker on the chain

A worker builds its first batch at the fiber cursor of the stored thread. Each further one
starts where the batch before it has stopped. If nobody else executes the thread or changes
its fibers meanwhile, every batch starts at the designated fiber, so what does not fit into
one transaction is executed by the next ones as if it were one.

A batch is confirmed if the ledger has executed it. One that the worker has given up may
have been executed or not. No batch is executed twice.
-/
namespace Antegen.Client

open ThreadProgram Transition

/-- The batch that is on its way. -/
def WorkerPhase.batch? : WorkerPhase → Option WorkerBatch
  | .estimating b => some b
  | .submitting b => some b
  | _ => none

namespace Worker

def batch? (s : Worker) : Option WorkerBatch := s.phase.batch?

def Done (s : Worker) : Prop := ∃ result, s.phase = .finished result

end Worker

/-- A worker, the ledger, and what a transaction finds besides it. -/
structure WorkerSystem where
  worker : Worker
  ledger : Ledger
  chain : Chain

/-- Nobody adds a fiber to the thread or takes one from it. -/
def KeepsFibers (thread : Pubkey) (w w' : Ledger) : Prop :=
  ∀ t t', w.threadAt thread = some t → w'.threadAt thread = some t' → t'.fiberIds = t.fiberIds

/-- A batch from the cursor would start at the designated fiber. -/
def Directed (thread : Pubkey) (cursor : Option UInt8) (w : Ledger) : Prop :=
  Holds thread (fun t => StartsDesignated t (cursor.getD t.fiberCursor)) w

/-! ## What others leave -/

section Others

variable {e : Env} {thread : Pubkey} {w w' : Ledger}

/-- Others leave the signal, the cursor and the fibers of the thread. -/
theorem others_step {ev : Event} (hquiet : Undisturbed ev) (hfiring : ev.firing? = none)
    (hkeeps : KeepsFibers thread w w') (hstep : Step e thread w ev w') {t' : Thread}
    (ht' : w'.threadAt thread = some t') :
    ∃ t, w.threadAt thread = some t ∧ t'.fiberIds = t.fiberIds ∧
      t'.fiberCursor = t.fiberCursor ∧ t'.fiberSignal = t.fiberSignal := by
  rcases step_cases hstep ht' with ⟨ix, rfl, heffect⟩ | ⟨cpi, a, s, y, rfl, -⟩ |
    ⟨cpi, a, -, hsame, -⟩ | ⟨-, hsame⟩
  · cases ix with
    | threadUpdate a =>
      obtain ⟨t, ht, hu⟩ := heffect
      have heq := updatedThread_eq hu
      refine ⟨t, ht, hkeeps t t' ht ht', ?_, ?_⟩
      · rw [heq]
      · rw [heq]
    | fiberUpdate a =>
      obtain ⟨t, ht, heq⟩ := heffect
      refine ⟨t, ht, hkeeps t t' ht ht', ?_⟩
      by_cases htrack : a.track = true
      · rw [if_pos htrack] at heq
        rw [heq]
        refine ⟨t.trackUpdated_fiberCursor _, ?_⟩
        unfold Thread.trackUpdated
        split <;> rfl
      · rw [if_neg htrack] at heq
        rw [heq]
        exact ⟨rfl, rfl⟩
    | threadCreate a => exact absurd hquiet id
    | fiberCreate a => exact absurd hquiet id
    | fiberClose a => exact absurd hquiet id
    | fiberSwap a => exact absurd hquiet id
  · exact absurd hfiring (by simp [Event.firing?])
  · exact ⟨t', hsame, rfl, rfl, rfl⟩
  · exact ⟨t', hsame, rfl, rfl, rfl⟩

theorem designated_congr {t t' : Thread} (hids : t'.fiberIds = t.fiberIds)
    (hcursor : t'.fiberCursor = t.fiberCursor) (hsignal : t'.fiberSignal = t.fiberSignal) :
    designated t' = designated t := by
  unfold designated Thread.nextFiberIndex
  rw [hids, hcursor, hsignal]

theorem Directed.others {cursor : Option UInt8} {ev : Event} (h : Directed thread cursor w)
    (hquiet : Undisturbed ev) (hfiring : ev.firing? = none) (hkeeps : KeepsFibers thread w w')
    (hstep : Step e thread w ev w') : Directed thread cursor w' := by
  intro t' ht'
  obtain ⟨t, ht, hids, hcursor, hsignal⟩ := others_step hquiet hfiring hkeeps hstep ht'
  have hstarts := h t ht
  unfold StartsDesignated at hstarts ⊢
  rw [hsignal, hcursor, designated_congr hids hcursor hsignal]
  exact hstarts

end Others

/-! ## Where a batch stops -/

section Batches

variable {e : Env} {thread : Pubkey} {w w' : Ledger} {c : Chain}

/-- An execution on a thread that is to be closed leaves it so. -/
theorem closing_step {cpi : Cpi} {a : ExecArgs} {before : Thread} {o : Outcome}
    (hstep : Step e thread w (.exec cpi a before o) w')
    (hclose : Holds thread (fun t => t.fiberSignal = .close) w) :
    Holds thread (fun t => t.fiberSignal = .close) w' := by
  intro t' ht'
  rcases step_cases hstep ht' with ⟨ix, he, -⟩ | ⟨cpi, a, s, y, -, hstored, -⟩ |
    ⟨cpi, a, -, -, hsame⟩ | ⟨he, -⟩
  · exact absurd he (by simp)
  · exact absurd (hclose _ hstored) y.notClosing
  · exact hsame
  · exact absurd he (by simp)

theorem Chain.closing_kept {ixs : List ExecInstruction} (hixs : ∀ ix ∈ ixs, ix.thread = thread)
    (hclose : Holds thread (fun t => t.fiberSignal = .close) w)
    (hrun : c.executeAll ixs w = .ok w') :
    Holds thread (fun t => t.fiberSignal = .close) w' := by
  induction ixs generalizing w with
  | nil =>
    obtain rfl := pure_eq_ok.mp hrun
    exact hclose
  | cons ix ixs ih =>
    obtain ⟨t, o, u, -, -, hstep, hrest, -⟩ := events_cons (hixs ix List.mem_cons_self) hrun
    exact ih (fun ix' hmem => hixs ix' (List.mem_cons_of_mem ix hmem)) (closing_step hstep hclose)
      hrest

namespace ExecutorLogic

variable {x : ExecutorLogic} {t : Thread} {start : UInt8}

/-- If the last execution of a batch chains too, the thread designates the fiber after it. -/
theorem designated_of_chained {k : ℕ} (hreached : x.Reached thread t start k)
    (hchain : x.Signals thread t start k .chain) (hagrees : x.Agrees c thread w)
    (hstored : w.threadAt thread = some t) (hopen : t.fiberSignal ≠ .close)
    (hstart : start = designated t) (hrun : c.executeAll (x.execs thread t start k) w = .ok w')
    {t' : Thread} (ht' : w'.threadAt thread = some t') :
    designated t' = cursorAt t.fiberIds start k := by
  obtain ⟨j, rfl⟩ : ∃ j, k = j + 1 := ⟨k - 1, by have hpos := hreached.pos; omega⟩
  obtain ⟨ix, hix⟩ := hreached.built j (by omega)
  obtain ⟨hthread, hcursor⟩ := execAt_names hix
  have hpending := hchain.pendingSignal hagrees hrun
  rw [Client.pendingSignal, ht'] at hpending
  rw [execs_succ hix, c.executeAll_append] at hrun
  obtain ⟨u, hu, hlast⟩ := hrun
  obtain ⟨-, hnext⟩ := run_of_chained hreached hagrees hstored hopen hstart (by omega) hu
  obtain ⟨v, hv, hids, hopen', hdesignated⟩ := hnext (by omega)
  obtain ⟨o, hexec⟩ := c.execute_eq_ok hlast
  cases o with
  | closePath =>
    obtain ⟨t₂, -, -, -, hstored₂, -, -, hclose, -⟩ := threadExec_closePath hexec
    have hsame : u.threadAt thread = some t₂ := by
      rw [← hthread]
      exact hstored₂
    rw [hv] at hsame
    obtain rfl := Option.some.inj hsame
    exact absurd hclose hopen'
  | fiber s =>
    obtain ⟨y⟩ := threadExec_fiber hexec
    have hfinished : t' = y.finished := by
      apply y.eq_finished
      rw [show (c.args ix).thread = thread from hthread, ht']
    have hy : y.thread = v := by
      have hsame := y.stored
      rw [show (c.args ix).thread = thread from hthread, hv] at hsame
      exact (Option.some.inj hsame).symm
    have hpass : (c.args ix).fiberCursor = designated y.thread := by
      rw [hy, hdesignated]
      exact hcursor
    rw [hfinished] at hpending ⊢
    rw [designated_finished y hpass hpending, hy, hids, cursorAt_succ, ← hcursor]
    rfl

/-- A batch that is to be continued leaves the cursor that the thread designates. -/
theorem directed_of_batch {overrideFiberCursor : Option UInt8} {b : Batch}
    (hstored : w.threadAt thread = some t)
    (hbuild : x.buildExecuteTransaction thread t overrideFiberCursor = .ok b)
    (hstarts : StartsDesignated t (overrideFiberCursor.getD t.fiberCursor))
    (hagrees : x.Agrees c thread w) (hne : b.ixs ≠ []) (hrun : c.executeAll b.ixs w = .ok w')
    (hmore : b.needsContinuation = true) : Directed thread b.nextFiberCursor w' := by
  intro t' ht'
  by_cases hclose : t.fiberSignal = .close
  · refine Or.inl (Chain.closing_kept (buildExecuteTransaction_thread hbuild) ?_ hrun t' ht')
    intro t₁ ht₁
    rw [hstored] at ht₁
    rw [← Option.some.inj ht₁]
    exact hclose
  · have hstart := hstarts.resolve_left hclose
    have hdone : b.needsContinuation ≠ false := by simp [hmore]
    cases buildExecuteTransaction_exit x thread t hbuild hne with
    | maxBatch _ _ hcont => exact absurd hcont hdone
    | emptyFiber k _ _ _ _ _ hcont => exact absurd hcont hdone
    | closing k ix _ _ _ _ _ hcont => exact absurd hcont hdone
    | quiet k s _ _ _ _ _ _ hcont => exact absurd hcont hdone
    | full k hreached _ hchain hixs _ hnext =>
      rw [hixs] at hrun
      refine Or.inr ?_
      rw [hnext, designated_of_chained hreached hchain hagrees hstored hclose hstart hrun ht']
      rfl
    | deferred k _ _ hsignals hixs _ =>
      rw [hixs] at hrun
      have hpending := hsignals.pendingSignal hagrees hrun
      rw [Client.pendingSignal, ht'] at hpending
      exact Or.inl hpending

end ExecutorLogic

end Batches

/-! ## The course of a worker -/

namespace Worker

variable {s s' : Worker}

theorem batch?_of_submitting {b : WorkerBatch} (h : s.phase = .submitting b) :
    s.batch? = some b := by
  rw [batch?, h]
  rfl

/-- The worker stays at its thread and goes on from the cursor, if it goes on. -/
structure Keeps (s s' : Worker) : Prop where
  threadPubkey : s'.threadPubkey = s.threadPubkey
  pendingFiberCursor : s'.pendingFiberCursor = s.pendingFiberCursor
  batch? : s'.Done ∨ s'.batch? = s.batch?

end Worker

/-- The batch was built for the ledger and the chain as they are, from the designated fiber. -/
structure Prepared (thread : Pubkey) (w : Ledger) (c : Chain) (b : WorkerBatch) : Prop where
  nonempty : b.ixs ≠ []
  stored : w.threadAt thread = some b.thread
  starts : StartsDesignated b.thread (b.overrideFiberCursor.getD b.thread.fiberCursor)
  built : ∃ x : ExecutorLogic, x.Agrees c thread w ∧
    x.buildExecuteTransaction thread b.thread b.overrideFiberCursor = .ok b.toBatch

/-- Between two steps the batch that is on its way is prepared, and if there is none the next
one would start at the designated fiber. -/
structure OnCourse (e : Env) (thread : Pubkey) (y : WorkerSystem) : Prop where
  env : y.chain.env = e
  threadPubkey : y.worker.threadPubkey = thread
  prepared : ∀ b, y.worker.batch? = some b → Prepared thread y.ledger y.chain b ∧
    b.nextFiberCursor = y.worker.pendingFiberCursor
  directed : y.worker.batch? = none → ¬ y.worker.Done →
    Directed thread y.worker.pendingFiberCursor y.ledger

section Course

variable {e : Env} {thread : Pubkey} {s s' : Worker} {w w' : Ledger} {c : Chain}

/-- The batch on its way is executed. -/
theorem OnCourse.executed {b : WorkerBatch} (h : OnCourse e thread ⟨s, w, c⟩)
    (hphase : s.phase = .submitting b) (hrun : c.executeAll b.ixs w = .ok w') :
    Run (Guarded (Step e thread) Designating) w (c.events s.threadPubkey b.ixs w) w' ∧
      (b.needsContinuation = true → Directed thread s.pendingFiberCursor w') := by
  obtain ⟨⟨hne, hstored, hstarts, x, hagrees, hbuild⟩, hnext⟩ :=
    h.prepared b (Worker.batch?_of_submitting hphase)
  have henv : c.env = e := h.env
  have hthread : s.threadPubkey = thread := h.threadPubkey
  rw [← henv, hthread]
  refine ⟨ExecutorLogic.run_of_batch hstored hbuild hstarts hagrees hrun, fun hmore => ?_⟩
  rw [← hnext]
  exact ExecutorLogic.directed_of_batch hstored hbuild hstarts hagrees hne hrun hmore

end Course

end Antegen.Client
