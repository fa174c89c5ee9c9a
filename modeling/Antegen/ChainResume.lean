import Antegen.DesignatedFiber
import Antegen.FinishedBatches

/-!
# How an interrupted chain goes on

A batch is built from the stored thread and from a cursor that the worker may pass on
from its last batch. The stored signal is not looked at: the first instruction is always
the execution of the fiber under that cursor. So a pending close is not resumed, and a
pending chain only by whoever knows the fiber that comes next. Where every batch starts
at the designated fiber, the executions of all batches together follow the signals.
-/
namespace Antegen.Client

open ThreadProgram Transition

namespace ExecutorLogic

variable {x : ExecutorLogic} {thread : Pubkey} {t : Thread}

/-- The loop only appends to a batch. -/
theorem batchLoop_isPrefix {n : ℕ} {cursor : UInt8} {b b' : Batch}
    (h : x.batchLoop thread t n cursor b = .ok b') : b.ixs <+: b'.ixs := by
  induction n generalizing cursor b with
  | zero =>
    obtain rfl := pure_eq_ok.mp h
    exact List.prefix_rfl
  | succ n ih =>
    simp only [batchLoop, bind_eq_ok, Prod.exists] at h
    obtain ⟨signal, units, -, h⟩ := h
    cases signal with
    | chain =>
      simp only [bind_eq_ok, Prod.exists] at h
      obtain ⟨o, fee, -, h⟩ := h
      cases o with
      | none =>
        obtain rfl := pure_eq_ok.mp h
        exact List.prefix_rfl
      | some ix =>
        simp only at h
        split_ifs at h
        · exact (List.prefix_append b.ixs [ix]).trans (ih h)
        · obtain rfl := pure_eq_ok.mp h
          exact List.prefix_rfl
    | close =>
      simp only [bind_eq_ok] at h
      obtain ⟨ix, -, h⟩ := h
      split_ifs at h
      · obtain rfl := pure_eq_ok.mp h
        exact List.prefix_append b.ixs [ix]
      · obtain rfl := pure_eq_ok.mp h
        exact List.prefix_rfl
    | none =>
      obtain rfl := pure_eq_ok.mp h
      exact List.prefix_rfl
    | again =>
      obtain rfl := pure_eq_ok.mp h
      exact List.prefix_rfl
    | next index =>
      obtain rfl := pure_eq_ok.mp h
      exact List.prefix_rfl
    | update paused trigger index =>
      obtain rfl := pure_eq_ok.mp h
      exact List.prefix_rfl

/-- The execution of one fiber, if it can be built. -/
def execOf (x : ExecutorLogic) (thread : Pubkey) (t : Thread) (cursor : UInt8) :
    Option ExecInstruction :=
  x.execAt thread t cursor 0

/-- A batch starts with the execution of the fiber under the start cursor, whatever signal
is pending, and is empty if that fiber is. -/
theorem buildExecuteTransaction_head {overrideFiberCursor : Option UInt8} {b : Batch}
    (h : x.buildExecuteTransaction thread t overrideFiberCursor = .ok b) :
    b.ixs.head? = x.execOf thread t (overrideFiberCursor.getD t.fiberCursor) ∧
      (b.ixs.head? = none ↔ x.EmptyFiber thread (overrideFiberCursor.getD t.fiberCursor)) := by
  simp only [buildExecuteTransaction, bind_eq_ok, Prod.exists] at h
  obtain ⟨o, fee, hbuild, h⟩ := h
  have hexec : x.execOf thread t (overrideFiberCursor.getD t.fiberCursor) = o := by
    unfold execOf execAt
    rw [show cursorAt t.fiberIds (overrideFiberCursor.getD t.fiberCursor) 0 =
      overrideFiberCursor.getD t.fiberCursor from rfl, hbuild]
  rw [hexec]
  rcases buildThreadExecIx_cases hbuild with ⟨rfl, hempty⟩ | ⟨ix, fee₀, rfl, -, hfull⟩
  · obtain rfl := pure_eq_ok.mp h
    exact ⟨rfl, fun _ => hempty, fun _ => rfl⟩
  · simp only at h
    split_ifs at h
    obtain ⟨rest, hrest⟩ := batchLoop_isPrefix h
    rw [← hrest]
    exact ⟨rfl, fun hnone => absurd hnone (by simp), fun hempty => absurd hempty hfull⟩

end ExecutorLogic

/-- The instruction that resumes a thread after its last firing: the close for a close, and
for a chain the execution of the fiber that follows the last executed one. -/
def Continuation (x : ExecutorLogic) (thread : Pubkey) (t : Thread) (last : Firing)
    (ix : ExecInstruction) : Prop :=
  (t.fiberSignal = .close ∧ x.buildCloseThreadExec thread t = .ok ix) ∨
    (t.fiberSignal = .chain ∧ x.execOf thread t (cyclicNext t.fiberIds last.index) = some ix)

/-- The batch starts with the instruction that resumes the thread. -/
def Resumes (x : ExecutorLogic) (thread : Pubkey) (t : Thread) (last : Firing) (b : Batch) : Prop :=
  ∃ ix, b.ixs.head? = some ix ∧ Continuation x thread t last ix

/-- The exact condition. For a chain the batch starts at the fiber after the last executed
one, which is not empty; for a close the execution of the fiber happens to be the close. -/
def StartsAtContinuation (x : ExecutorLogic) (thread : Pubkey) (t : Thread) (last : Firing)
    (start : UInt8) : Prop :=
  (t.fiberSignal = .chain ∧ start = cyclicNext t.fiberIds last.index ∧
      ¬ x.EmptyFiber thread start) ∨
    (t.fiberSignal = .close ∧ ∃ ix, x.execOf thread t start = some ix ∧
      x.buildCloseThreadExec thread t = .ok ix)

theorem resumes_iff {x : ExecutorLogic} {thread : Pubkey} {t : Thread} {last : Firing}
    {overrideFiberCursor : Option UInt8} {b : Batch}
    (h : x.buildExecuteTransaction thread t overrideFiberCursor = .ok b) :
    Resumes x thread t last b ↔
      StartsAtContinuation x thread t last (overrideFiberCursor.getD t.fiberCursor) := by
  obtain ⟨hhead, hempty⟩ := ExecutorLogic.buildExecuteTransaction_head h
  unfold Resumes StartsAtContinuation Continuation
  rw [hhead] at hempty ⊢
  constructor
  · rintro ⟨ix, hix, ⟨hclose, hbuild⟩ | ⟨hchain, hnext⟩⟩
    · exact Or.inr ⟨hclose, ix, hix, hbuild⟩
    · have hstart := (ExecutorLogic.execAt_names hix).2.symm.trans
        (ExecutorLogic.execAt_names hnext).2
      refine Or.inl ⟨hchain, hstart, fun hnone => ?_⟩
      rw [hempty.mpr hnone] at hix
      exact absurd hix (by simp)
  · rintro (⟨hchain, hstart, hfull⟩ | ⟨hclose, ix, hix, hbuild⟩)
    · obtain ⟨ix, hix⟩ := Option.ne_none_iff_exists'.mp fun hnone => hfull (hempty.mp hnone)
      exact ⟨ix, hix, Or.inr ⟨hchain, by rw [← hstart, hix]⟩⟩
    · exact ⟨ix, hix, Or.inl ⟨hclose, hbuild⟩⟩

/-! ## Batches as runs of the thread -/

/-- Behind an execution of the designated fiber that chains, the next fiber is designated. -/
theorem designated_finished {e : Env} {cpi : Cpi} {a : ExecArgs} {w w' : Ledger} {s : Signal}
    (y : Execution e cpi a w w' s) (hpass : a.fiberCursor = designated y.thread)
    (hpending : y.finished.fiberSignal = .chain) :
    designated y.finished = cyclicNext y.thread.fiberIds a.fiberCursor := by
  have hsignal : s = .chain := by
    have hfields := y.finished_fiberSignal
    rw [hpending] at hfields
    by_contra hne
    rw [if_neg hne] at hfields
    split_ifs at hfields
  have hcursor : y.finished.fiberCursor = a.fiberCursor := by
    rw [y.finished_fiberCursor]
    subst hsignal
    show (y.thread.sync a.fiberCursor).fiberCursor = _
    rw [Thread.sync_fiberCursor]
    split_ifs with hchain
    · rfl
    · rw [hpass, designated, if_neg hchain]
  rw [designated, if_pos hpending, Thread.nextFiberIndex, hcursor, y.finished_fiberIds]

/-- What the executions of a transaction are in the life of the thread. -/
def Chain.events (c : Chain) (thread : Pubkey) : List ExecInstruction → Ledger → List Event
  | [], _ => []
  | ix :: ixs, w =>
    match w.threadAt thread, threadExec c.env c.cpi (c.args ix) w with
    | some t, .ok (w', o) => .exec c.cpi (c.args ix) t o :: c.events thread ixs w'
    | _, _ => []

/-- A step of the executors or of anyone else. A batch is built from the stored thread with
a start cursor that meets `admits`, is simulated on the ledger and executed there. -/
inductive ClientStep (e : Env) (thread : Pubkey) (admits : Thread → UInt8 → Prop) (w : Ledger) :
    List Event → Ledger → Prop
  | batch {x : ExecutorLogic} {c : Chain} {t : Thread} {overrideFiberCursor : Option UInt8}
      {b : Batch} {w' : Ledger} : c.env = e → w.threadAt thread = some t →
      x.buildExecuteTransaction thread t overrideFiberCursor = .ok b →
      admits t (overrideFiberCursor.getD t.fiberCursor) → x.Agrees c thread w →
      c.executeAll b.ixs w = .ok w' → ClientStep e thread admits w (c.events thread b.ixs w) w'
  | other {ev : Event} {w' : Ledger} : Undisturbed ev → ev.firing? = none →
      Step e thread w ev w' → ClientStep e thread admits w [ev] w'

/-- The batch starts at the designated fiber, or a close is pending. -/
def StartsDesignated (t : Thread) (start : UInt8) : Prop :=
  t.fiberSignal = .close ∨ start = designated t

namespace Chain

variable {c : Chain} {thread : Pubkey} {w w' : Ledger}

/-- One execution as a step, in front of the rest of the transaction. -/
theorem events_cons {ix : ExecInstruction} {ixs : List ExecInstruction} (hix : ix.thread = thread)
    (hrun : c.executeAll (ix :: ixs) w = .ok w') :
    ∃ t o u, w.threadAt thread = some t ∧ threadExec c.env c.cpi (c.args ix) w = .ok (u, o) ∧
      Step c.env thread w (.exec c.cpi (c.args ix) t o) u ∧ c.executeAll ixs u = .ok w' ∧
      c.events thread (ix :: ixs) w = .exec c.cpi (c.args ix) t o :: c.events thread ixs u := by
  subst hix
  simp only [executeAll, List.foldlM_cons, bind_eq_ok] at hrun
  obtain ⟨u, hu, hrest⟩ := hrun
  obtain ⟨o, hexec⟩ := c.execute_eq_ok hu
  obtain ⟨t, ht, hstep⟩ := exec_step hexec
  have ht' : w.threadAt ix.thread = some t := ht
  refine ⟨t, o, u, ht', hexec, hstep, hrest, ?_⟩
  simp only [events, ht', hexec]

/-- With a close pending every execution takes the close path. -/
theorem run_of_closing {ixs : List ExecInstruction} (hixs : ∀ ix ∈ ixs, ix.thread = thread)
    (hclose : Holds thread (fun t => t.fiberSignal = .close) w)
    (hrun : c.executeAll ixs w = .ok w') :
    Run (Guarded (Step c.env thread) Designating) w (c.events thread ixs w) w' := by
  induction ixs generalizing w with
  | nil =>
    obtain rfl := pure_eq_ok.mp hrun
    exact .nil w
  | cons ix ixs ih =>
    have hix := hixs ix List.mem_cons_self
    obtain ⟨t, o, u, ht, hexec, hstep, hrest, hevents⟩ := events_cons hix hrun
    rw [hevents]
    cases o with
    | fiber s =>
      obtain ⟨y⟩ := threadExec_fiber hexec
      have hstored : w.threadAt thread = some y.thread := by
        rw [← hix]
        exact y.stored
      exact absurd (hclose _ hstored) y.notClosing
    | closePath =>
      refine .cons ⟨⟨trivial, trivial⟩, hstep⟩ (ih (fun ix' hmem => ?_) ?_ hrest)
      · exact hixs ix' (List.mem_cons_of_mem _ hmem)
      · intro t' ht'
        rcases step_cases hstep ht' with ⟨ix', he, -⟩ | ⟨cpi, a, s, y, he, -⟩ |
          ⟨cpi, a, -, -, hsame⟩ | ⟨he, -⟩
        · exact absurd he (by simp)
        · exact absurd he (by simp)
        · exact hsame
        · exact absurd he (by simp)

theorem events_append {ixs rest : List ExecInstruction} (hixs : ∀ ix ∈ ixs, ix.thread = thread)
    {u : Ledger} (hrun : c.executeAll ixs w = .ok u) :
    c.events thread (ixs ++ rest) w = c.events thread ixs w ++ c.events thread rest u := by
  induction ixs generalizing w with
  | nil =>
    obtain rfl := pure_eq_ok.mp hrun
    rfl
  | cons ix ixs ih =>
    have hix := hixs ix List.mem_cons_self
    obtain ⟨t, o, v, ht, hexec, -, hrest, hevents⟩ := events_cons hix hrun
    rw [hevents, List.cons_append, List.cons_append,
      ← ih (fun ix' hmem => hixs ix' (List.mem_cons_of_mem _ hmem)) hrest]
    simp only [events, ht, hexec]

end Chain

namespace ExecutorLogic

variable {x : ExecutorLogic} {c : Chain} {thread : Pubkey} {t : Thread} {start : UInt8}
  {w : Ledger}

/-- The run lemma: the executions of a batch that starts at the designated fiber all are
executions of the designated fiber. -/
theorem run_of_chained {k : ℕ} (hreached : x.Reached thread t start k)
    (hagrees : x.Agrees c thread w) (hstored : w.threadAt thread = some t)
    (hopen : t.fiberSignal ≠ .close) (hstart : start = designated t) {j : ℕ} (hj : j ≤ k)
    {u : Ledger} (hrun : c.executeAll (x.execs thread t start j) w = .ok u) :
    Run (Guarded (Step c.env thread) Designating) w
        (c.events thread (x.execs thread t start j) w) u ∧
      (j < k → ∃ t', u.threadAt thread = some t' ∧ t'.fiberIds = t.fiberIds ∧
        t'.fiberSignal ≠ .close ∧ designated t' = cursorAt t.fiberIds start j) := by
  induction j generalizing u with
  | zero =>
    obtain rfl := pure_eq_ok.mp hrun
    exact ⟨.nil w, fun _ => ⟨t, hstored, rfl, hopen, hstart.symm⟩⟩
  | succ j ih =>
    obtain ⟨ix, hix⟩ := hreached.built j (by omega)
    obtain ⟨hthread, hcursor⟩ := execAt_names hix
    rw [execs_succ hix, c.executeAll_append] at hrun
    obtain ⟨v, hv, hlast⟩ := hrun
    obtain ⟨hfront, hnext⟩ := ih (by omega) hv
    obtain ⟨t', ht', hids, hopen', hdesignated⟩ := hnext (by omega)
    have hsingle : c.executeAll [ix] v = .ok u := by
      simpa [Chain.executeAll] using hlast
    obtain ⟨t₁, o, u₁, ht₁, hexec, hstep, hnil, hevents⟩ := Chain.events_cons hthread hsingle
    obtain rfl := pure_eq_ok.mp hnil
    rw [ht'] at ht₁
    obtain rfl := Option.some.inj ht₁
    have hpass : (c.args ix).fiberCursor = designated t' := by
      rw [hdesignated]
      exact hcursor
    cases o with
    | closePath =>
      obtain ⟨t₂, -, -, -, hstored₂, -, -, hclose, -⟩ := threadExec_closePath hexec
      have hsame : v.threadAt thread = some t₂ := by
        rw [← hthread]
        exact hstored₂
      rw [ht'] at hsame
      obtain rfl := Option.some.inj hsame
      exact absurd hclose hopen'
    | fiber s =>
      rw [execs_succ hix, Chain.events_append (fun ix' hmem => execs_thread hmem) hv, hevents]
      refine ⟨hfront.append (.cons ⟨⟨trivial, hpass⟩, hstep⟩ (.nil u₁)), fun hlt => ?_⟩
      have hchain := hreached.chained (j + 1) (by omega) hlt
      have hu : c.executeAll (x.execs thread t start (j + 1)) w = .ok u₁ := by
        rw [execs_succ hix, c.executeAll_append]
        exact ⟨v, hv, hlast⟩
      have hpending := hchain.pendingSignal hagrees hu
      obtain ⟨y⟩ := threadExec_fiber hexec
      have hy : y.thread = t' := by
        have hsame := y.stored
        rw [show (c.args ix).thread = thread from hthread, ht'] at hsame
        exact (Option.some.inj hsame).symm
      rw [← hy] at hpass hids
      unfold Client.pendingSignal at hpending
      split at hpending
      · rename_i t₂ ht₂
        have hfinished : t₂ = y.finished := by
          apply y.eq_finished
          rw [show (c.args ix).thread = thread from hthread, ht₂]
        rw [hfinished] at hpending ht₂
        refine ⟨y.finished, ht₂, y.finished_fiberIds.trans hids, ?_, ?_⟩
        · rw [hpending]
          decide
        · rw [designated_finished y hpass hpending, hids, cursorAt_succ, ← hcursor]
          rfl
      · exact absurd hpending (by simp)

theorem buildExecuteTransaction_thread {overrideFiberCursor : Option UInt8} {b : Batch}
    (h : x.buildExecuteTransaction thread t overrideFiberCursor = .ok b) :
    ∀ ix ∈ b.ixs, ix.thread = thread := by
  intro ix hmem
  cases buildExecuteTransaction_exit x thread t h (List.ne_nil_of_mem hmem) with
  | closing k close _ _ _ hclose hixs _ =>
    rw [hixs, List.mem_append, List.mem_singleton] at hmem
    rcases hmem with hmem | rfl
    · exact execs_thread hmem
    · exact buildCloseThreadExec_thread hclose
  | maxBatch _ hixs _ => exact execs_thread (by rwa [hixs] at hmem)
  | emptyFiber k _ _ _ _ hixs _ => exact execs_thread (by rwa [hixs] at hmem)
  | full k _ _ _ hixs _ _ => exact execs_thread (by rwa [hixs] at hmem)
  | deferred k _ _ _ hixs _ => exact execs_thread (by rwa [hixs] at hmem)
  | quiet k s _ _ _ _ _ hixs _ => exact execs_thread (by rwa [hixs] at hmem)

/-- A batch from the designated fiber is a run on which executors obey. -/
theorem run_of_batch {overrideFiberCursor : Option UInt8} {b : Batch} {w' : Ledger}
    (hstored : w.threadAt thread = some t)
    (hbuild : x.buildExecuteTransaction thread t overrideFiberCursor = .ok b)
    (hstarts : StartsDesignated t (overrideFiberCursor.getD t.fiberCursor))
    (hagrees : x.Agrees c thread w) (hrun : c.executeAll b.ixs w = .ok w') :
    Run (Guarded (Step c.env thread) Designating) w (c.events thread b.ixs w) w' := by
  by_cases hclose : t.fiberSignal = .close
  · refine Chain.run_of_closing (buildExecuteTransaction_thread hbuild) (fun t' ht' => ?_) hrun
    rw [hstored] at ht'
    rw [← Option.some.inj ht']
    exact hclose
  · have hstart := hstarts.resolve_left hclose
    have hplain : ∀ k, x.Reached thread t (overrideFiberCursor.getD t.fiberCursor) k →
        b.ixs = x.execs thread t (overrideFiberCursor.getD t.fiberCursor) k →
        Run (Guarded (Step c.env thread) Designating) w (c.events thread b.ixs w) w' := by
      intro k hreached hixs
      rw [hixs] at hrun ⊢
      exact (run_of_chained hreached hagrees hstored hclose hstart le_rfl hrun).1
    by_cases hne : b.ixs = []
    · rw [hne] at hrun ⊢
      obtain rfl := pure_eq_ok.mp hrun
      exact .nil w
    · cases buildExecuteTransaction_exit x thread t hbuild hne with
      | maxBatch hreached hixs _ => exact hplain _ hreached hixs
      | emptyFiber k hreached _ _ _ hixs _ => exact hplain k hreached hixs
      | full k hreached _ _ hixs _ _ => exact hplain k hreached hixs
      | deferred k hreached _ _ hixs _ => exact hplain k hreached hixs
      | quiet k s hreached _ _ _ _ hixs _ => exact hplain k hreached hixs
      | closing k ix hreached _ hsignals hix hixs _ =>
        rw [hixs] at hrun ⊢
        obtain ⟨u, hu, hlast⟩ := c.executeAll_append.mp hrun
        rw [Chain.events_append (fun ix' hmem => execs_thread hmem) hu]
        refine (run_of_chained hreached hagrees hstored hclose hstart le_rfl hu).1.append ?_
        have hpending := hsignals.pendingSignal hagrees hu
        refine Chain.run_of_closing (fun ix' hmem => ?_) (fun t' ht' => ?_) ?_
        · rw [List.mem_singleton.mp hmem]
          exact buildCloseThreadExec_thread hix
        · rw [Client.pendingSignal, ht'] at hpending
          exact hpending
        · simpa [Chain.executeAll] using hlast

end ExecutorLogic

theorem ClientStep.run {e : Env} {thread : Pubkey} {w w' : Ledger} {events : List Event}
    (h : ClientStep e thread StartsDesignated w events w') :
    Run (Guarded (Step e thread) Designating) w events w' := by
  cases h with
  | batch henv hstored hbuild hstarts hagrees hrun =>
    subst henv
    exact ExecutorLogic.run_of_batch hstored hbuild hstarts hagrees hrun
  | @other ev w' hquiet hfiring hstep =>
    refine .cons ⟨⟨hquiet, ?_⟩, hstep⟩ (.nil w')
    cases ev with
    | exec cpi a before outcome =>
      cases outcome with
      | fiber s => exact absurd hfiring (by simp [Event.firing?])
      | closePath => trivial
    | instruction ix => trivial
    | other => trivial

/-- Within every chain, each fiber runs once and the fibers run one after the other. -/
def ChainsRunOnce (fs : List Firing) : Prop :=
  ∀ l, l <:+: fs → (∀ f ∈ l.dropLast, f.signal = .chain) →
    (l.map Firing.index).Nodup ∧
      l.IsChain fun f g => g.index = cyclicNext g.before.fiberIds f.index

theorem chainsRunOnce_of_follows {fs : List Firing} (h : fs.IsChain Follows) :
    ChainsRunOnce fs := by
  intro l hinfix hchain
  have hfollows : l.IsChain Follows := h.infix hinfix
  have hstep : l.IsChain fun f g =>
      f.index < g.index ∧ g.index = cyclicNext g.before.fiberIds f.index := by
    clear hinfix
    induction l with
    | nil => exact List.isChain_nil
    | cons f l ih =>
      cases l with
      | nil => exact List.isChain_singleton f
      | cons g l =>
        obtain ⟨hfirst, hrest⟩ := List.isChain_cons_cons.mp hfollows
        rw [List.dropLast_cons_cons] at hchain
        rw [Follows, if_pos (hchain f List.mem_cons_self)] at hfirst
        refine List.isChain_cons_cons.mpr ⟨⟨hfirst.2.2, hfirst.2.1⟩, ih ?_ hrest⟩
        intro f' hmem
        exact hchain f' (List.mem_cons_of_mem _ hmem)
  constructor
  · have hless : (l.map Firing.index).IsChain (· < ·) :=
      (List.isChain_map Firing.index).mpr (hstep.imp fun _ _ hfg => hfg.1)
    exact (List.isChain_iff_pairwise.mp hless).imp fun hfg => UInt8.ne_of_lt hfg
  · exact hstep.imp fun _ _ hfg => hfg.2

/-- Whatever led to a thread, the batch that is built for it starts with the instruction
that resumes it if and only if the start cursor is the continuation of the last firing. And
over all batches of any number of executors that start at the designated fiber, every
fiber of a chain runs once. -/
theorem interrupted_chain_resumes_iff {e : Env} {thread : Pubkey} :
    (∀ w₀ events w last t x overrideFiberCursor b, w₀.threadAt thread = none →
      Run (Step e thread) w₀ events w → (firings events).getLast? = some last →
      w.threadAt thread = some t →
      ExecutorLogic.buildExecuteTransaction x thread t overrideFiberCursor = .ok b →
      (Resumes x thread t last b ↔
        StartsAtContinuation x thread t last (overrideFiberCursor.getD t.fiberCursor))) ∧
    (∀ w batches w', Reachable e thread w →
      Run (ClientStep e thread StartsDesignated) w batches w' →
      ChainsRunOnce (firings batches.flatten)) := by
  constructor
  · intro w₀ events w last t x overrideFiberCursor b _ _ _ _ hbuild
    exact resumes_iff hbuild
  · intro w batches w' hreach hrun
    have hfine := hrun.flatten fun u evs u' hstep => ClientStep.run hstep
    exact chainsRunOnce_of_follows
      (firings_follow_after hfine (sorted_of_reachable hreach) none (by simp))

/-! ## A memo thread between two workers -/

/-- Thread 1 has memos 0 and 1, and some executor has run memo 0. -/
def interrupted (s : Signal) : Result (Ledger × Outcome) := do
  let w ← setUp (.interval 10 false 0) [.fiberCreate (memoFiber 1)]
  threadExec sampleEnv (sampleChain s).cpi (sampleArgs 0) w

theorem interrupted_run {s s' : Signal} {w : Ledger} (h : interrupted s = .ok (w, .fiber s')) :
    ∃ w₀ events last, w₀.threadAt 1 = none ∧ Run (Step sampleEnv 1) w₀ events w ∧
      (firings events).getLast? = some last ∧ last.index = 0 := by
  simp only [interrupted, bind_eq_ok] at h
  obtain ⟨u, hsetUp, hexec⟩ := h
  have hixs : ∀ ix ∈ [Ix.fiberCreate (memoFiber 1)], ix.thread = 1 := by
    intro ix hix
    rw [List.mem_singleton.mp hix]
    rfl
  obtain ⟨w₀, events, hnone, hrun⟩ := setUp_reachable hixs hsetUp
  obtain ⟨t, -, hexecuted⟩ := exec_step hexec
  have hstep : Step sampleEnv 1 u (.exec (sampleChain s).cpi (sampleArgs 0) t (.fiber s')) w :=
    hexecuted
  refine ⟨w₀, events ++ [.exec (sampleChain s).cpi (sampleArgs 0) t (.fiber s')],
    ⟨t, 0, s'⟩, hnone, hrun.append (.cons hstep (.nil w)), ?_, rfl⟩
  rw [firings, List.filterMap_append]
  exact List.getLast?_concat

/-- What a worker finds and builds for the interrupted thread. -/
structure WorkerView where
  outcome : Outcome
  signal : Signal
  fiberIds : List UInt8
  designated : UInt8
  fibers : List UInt8
  closesFirst : Bool
  executes : Bool
  deriving DecidableEq

def workerView (s : Signal) (overrideFiberCursor : Option UInt8) : Option WorkerView := do
  let (w, o) ← (interrupted s).toOption
  let t ← w.threadAt 1
  let x := sampleExecutor (sampleChain s) w
  let b ← (x.buildExecuteTransaction 1 t overrideFiberCursor).toOption
  pure
    { outcome := o
      signal := t.fiberSignal
      fiberIds := t.fiberIds
      designated := ThreadProgram.designated t
      fibers := b.ixs.map ExecInstruction.fiberCursor
      closesFirst := b.ixs.head? == (x.buildCloseThreadExec 1 t).toOption
      executes := ((sampleChain s).executeAll b.ixs w).toOption.isSome }

/-- The view is one of a reachable thread whose last firing was that of fiber 0. -/
theorem workerView_eq_some {s s' : Signal} {overrideFiberCursor : Option UInt8} {v : WorkerView}
    (h : workerView s overrideFiberCursor = some v) (hfired : v.outcome = .fiber s') :
    ∃ w₀ events w last t b, w₀.threadAt 1 = none ∧ Run (Step sampleEnv 1) w₀ events w ∧
      (firings events).getLast? = some last ∧ last.index = 0 ∧ w.threadAt 1 = some t ∧
      t.fiberSignal = v.signal ∧ t.fiberIds = v.fiberIds ∧ designated t = v.designated ∧
      (sampleExecutor (sampleChain s) w).buildExecuteTransaction 1 t overrideFiberCursor = .ok b ∧
      b.ixs.map ExecInstruction.fiberCursor = v.fibers ∧
      (b.ixs.head? == ((sampleExecutor (sampleChain s) w).buildCloseThreadExec 1 t).toOption) =
        v.closesFirst ∧
      ((sampleChain s).executeAll b.ixs w).toOption.isSome = v.executes := by
  simp only [workerView, Option.bind_eq_bind, Option.bind_eq_some_iff, Prod.exists,
    Option.pure_def, Option.some.injEq] at h
  obtain ⟨w, o, hfire, t, ht, b, hb, rfl⟩ := h
  subst hfired
  obtain ⟨w₀, events, last, hnone, hrun, hlast, hindex⟩ :=
    interrupted_run (toOption_eq_some.mp hfire)
  exact ⟨w₀, events, w, last, t, b, hnone, hrun, hlast, hindex, ht, rfl, rfl, rfl,
    toOption_eq_some.mp hb, rfl, rfl, rfl⟩

/-- A worker without a cursor of its own misses the continuation. -/
def Misses (pending : Signal) : Prop :=
  ∃ w₀ events w last t x b, w₀.threadAt 1 = none ∧ Run (Step sampleEnv 1) w₀ events w ∧
    (firings events).getLast? = some last ∧ w.threadAt 1 = some t ∧ t.fiberSignal = pending ∧
    ExecutorLogic.buildExecuteTransaction x 1 t none = .ok b ∧ b.ixs ≠ [] ∧
    ¬ Resumes x 1 t last b

/-- Two finished batches in a row from a ledger, both without a cursor of the worker. -/
def twoBatches (s : Signal) (ixs : List Ix) : Option (List UInt8 × List Signal) := do
  let w ← (setUp (.interval 10 false 0) ixs).toOption
  let (_, b, w') ← batchOf s w
  let (_, b', _) ← batchOf s w'
  let fs := firings ((sampleChain s).events 1 b.ixs w ++ (sampleChain s).events 1 b'.ixs w')
  pure (fs.map Firing.index, fs.map Firing.signal)

theorem twoBatches_run {s : Signal} {ixs : List Ix} (hixs : ∀ ix ∈ ixs, ix.thread = 1)
    {indices : List UInt8} {signals : List Signal}
    (h : twoBatches s ixs = some (indices, signals)) :
    ∃ w batches w', Reachable sampleEnv 1 w ∧
      Run (ClientStep sampleEnv 1 fun _ _ => True) w batches w' ∧
      (firings batches.flatten).map Firing.index = indices ∧
      (firings batches.flatten).map Firing.signal = signals := by
  simp only [twoBatches, batchOf, Option.bind_eq_bind, Option.bind_eq_some_iff, Option.pure_def,
    Option.some.injEq, Prod.exists, Prod.mk.injEq] at h
  obtain ⟨w, hw, t, b, w₁, ⟨t₀, ht, b₀, hb, u, hu, rfl, rfl, rfl⟩, t', b', w₂,
    ⟨t₀', ht', b₀', hb', u', hu', rfl, rfl, rfl⟩, hindices, hsignals⟩ := h
  have hfirst : ClientStep sampleEnv 1 (fun _ _ => True) w _ u :=
    .batch rfl ht (toOption_eq_some.mp hb) trivial (sampleExecutor_agrees (sampleChain s) 1 w)
      (toOption_eq_some.mp hu)
  have hsecond : ClientStep sampleEnv 1 (fun _ _ => True) u _ u' :=
    .batch rfl ht' (toOption_eq_some.mp hb') trivial (sampleExecutor_agrees (sampleChain s) 1 u)
      (toOption_eq_some.mp hu')
  refine ⟨w, _, u', setUp_reachable hixs (toOption_eq_some.mp hw),
    .cons hfirst (.cons hsecond (.nil u')), ?_, ?_⟩
  · simpa using hindices
  · simpa using hsignals

set_option maxRecDepth 20000 in
/-- What a new worker and one that was passed the next cursor see and build. -/
theorem workers_evaluated :
    workerView .close none = some ⟨.fiber .close, .close, [0, 1], 0, [0], false, true⟩ ∧
      workerView .chain none = some ⟨.fiber .chain, .chain, [0, 1], 1, [0, 1], false, true⟩ ∧
      workerView .chain (some 1) = some ⟨.fiber .chain, .chain, [0, 1], 1, [1], false, true⟩ ∧
      twoBatches .chain [.fiberCreate (memoFiber 1), .fiberUpdate (clearFiber 1)] =
        some ([0, 0], [.chain, .chain]) :=
  ⟨by decide +kernel, by decide +kernel, by decide +kernel, by decide +kernel⟩

/-- A new worker builds an execution of fiber 0 for a thread that is to be closed, and the
same one for a thread whose chain has left fiber 0. In front of an empty fiber, fiber 0
runs twice in one chain. -/
theorem new_worker_misses_continuation :
    Misses .close ∧ Misses .chain ∧
      ∃ w batches w', Reachable sampleEnv 1 w ∧
        Run (ClientStep sampleEnv 1 fun _ _ => True) w batches w' ∧
        ¬ ChainsRunOnce (firings batches.flatten) := by
  obtain ⟨hclosing, hchaining, -, hrun⟩ := workers_evaluated
  refine ⟨?_, ?_, ?_⟩
  · obtain ⟨w₀, events, w, last, t, b, hnone, hr, hlast, -, ht, hpending, -, -, hbuild, hfibers,
      hcloses, -⟩ := workerView_eq_some hclosing rfl
    refine ⟨w₀, events, w, last, t, _, b, hnone, hr, hlast, ht, hpending, hbuild, ?_, ?_⟩
    · intro hnil
      rw [hnil] at hfibers
      exact absurd hfibers (by decide)
    · rintro ⟨ix, hhead, ⟨-, hclose⟩ | ⟨hchain, -⟩⟩
      · rw [hhead, hclose] at hcloses
        exact absurd hcloses (by simp [Except.toOption])
      · rw [hpending] at hchain
        exact absurd hchain (by decide)
  · obtain ⟨w₀, events, w, last, t, b, hnone, hr, hlast, hindex, ht, hpending, hids, -, hbuild,
      hfibers, -⟩ := workerView_eq_some hchaining rfl
    refine ⟨w₀, events, w, last, t, _, b, hnone, hr, hlast, ht, hpending, hbuild, ?_, ?_⟩
    · intro hnil
      rw [hnil] at hfibers
      exact absurd hfibers (by decide)
    · rintro ⟨ix, hhead, ⟨hclose, -⟩ | ⟨-, hnext⟩⟩
      · rw [hpending] at hclose
        exact absurd hclose (by decide)
      · obtain ⟨rest, hrest⟩ := List.head?_eq_some_iff.mp hhead
        have hcursor : ix.fiberCursor = cyclicNext t.fiberIds last.index :=
          (ExecutorLogic.execAt_names hnext).2
        rw [hrest, List.map_cons, hcursor, hids, hindex] at hfibers
        exact absurd (List.cons.inj hfibers).1 (by decide)
  · have hixs : ∀ ix ∈ [Ix.fiberCreate (memoFiber 1), .fiberUpdate (clearFiber 1)],
        ix.thread = 1 := by
      intro ix hix
      fin_cases hix <;> rfl
    obtain ⟨w, batches, w', hreach, hr, hindices, hsignals⟩ := twoBatches_run hixs hrun
    refine ⟨w, batches, w', hreach, hr, fun honce => ?_⟩
    have hchains : ∀ f ∈ (firings batches.flatten).dropLast, f.signal = .chain := by
      intro f hf
      have hmem : f.signal ∈ (firings batches.flatten).map Firing.signal :=
        List.mem_map_of_mem (List.mem_of_mem_dropLast hf)
      rw [hsignals] at hmem
      simpa using hmem
    have hnodup := (honce _ List.infix_rfl hchains).1
    rw [hindices] at hnodup
    exact absurd hnodup (by decide)

/-- A worker that was passed the next cursor resumes the chain, and fiber 1 runs once. -/
theorem passed_cursor_resumes :
    ∃ w last t x b, Reachable sampleEnv 1 w ∧ w.threadAt 1 = some t ∧ t.fiberSignal = .chain ∧
      ExecutorLogic.buildExecuteTransaction x 1 t (some 1) = .ok b ∧ Resumes x 1 t last b ∧
      ∃ batches w', Run (ClientStep sampleEnv 1 StartsDesignated) w batches w' ∧
        batches ≠ [] ∧ ChainsRunOnce (firings batches.flatten) := by
  obtain ⟨-, -, hview, -⟩ := workers_evaluated
  obtain ⟨w₀, events, w, last, t, b, hnone, hr, hlast, hindex, ht, hpending, hids, hdesignated,
    hbuild, hfibers, -, hexecutes⟩ := workerView_eq_some hview rfl
  obtain ⟨w', hw'⟩ := Option.isSome_iff_exists.mp hexecutes
  have hreach : Reachable sampleEnv 1 w := ⟨w₀, events, hnone, hr⟩
  have hstarts : StartsAtContinuation (sampleExecutor (sampleChain .chain) w) 1 t last 1 := by
    refine Or.inl ⟨hpending, ?_, fun hempty => ?_⟩
    · rw [hids, hindex]
      decide
    · have hnil := (ExecutorLogic.buildExecuteTransaction_head hbuild).2.mpr hempty
      rw [List.head?_eq_none_iff.mp hnil] at hfibers
      exact absurd hfibers (by decide)
  have hstep : ClientStep sampleEnv 1 StartsDesignated w _ w' :=
    .batch rfl ht hbuild (Or.inr hdesignated.symm)
      (sampleExecutor_agrees (sampleChain .chain) 1 w) (toOption_eq_some.mp hw')
  have hbatches : Run (ClientStep sampleEnv 1 StartsDesignated) w [_] w' :=
    .cons hstep (.nil w')
  refine ⟨w, last, t, _, b, hreach, ht, hpending, hbuild, ?_, _, w', hbatches, by simp, ?_⟩
  · exact (interrupted_chain_resumes_iff.1 w₀ events w last t _ (some 1) b hnone hr hlast ht
      hbuild).mpr hstarts
  · exact interrupted_chain_resumes_iff.2 w _ w' hreach hbatches

end Antegen.Client
