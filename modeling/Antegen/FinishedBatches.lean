import Antegen.Executor
import Antegen.ThreadClose

/-!
# What a finished batch leaves behind

A worker stops for good after a batch without a continuation. The chain executes the
instructions of a batch one after another, and the simulation sees the signal that they
leave. A batch that ends with any other signal or with a close leaves nothing pending.
The two remaining exits ask for no continuation either: the fifth execution is not
looked at, and in front of an empty fiber the chain is still on.
-/
namespace Antegen.Client

open ThreadProgram

/-- The chain as a transaction finds it, besides the ledger. -/
structure Chain where
  env : Env
  cpi : Cpi
  config : ThreadConfig
  clock : Clock

namespace Chain

variable (c : Chain)

/-- An instruction as the program receives it. -/
def args (ix : ExecInstruction) : ExecArgs where
  executor := ix.executor
  thread := ix.thread
  fiber := ix.fiber
  config := c.config
  admin := ix.admin
  nonceAccount := ix.nonceAccount
  recentBlockhashes := ix.recentBlockhashes
  remainingAccounts := ix.remainingAccounts.map AccountMeta.pubkey
  clock := c.clock
  forgoCommission := ix.forgoCommission
  fiberCursor := ix.fiberCursor

def execute (w : Ledger) (ix : ExecInstruction) : Result Ledger := do
  require (ix.programId = threadProgram) .callee
  (threadExec c.env c.cpi (c.args ix) w).map Prod.fst

/-- A transaction is its instructions one after another. -/
def executeAll (ixs : List ExecInstruction) (w : Ledger) : Result Ledger := ixs.foldlM c.execute w

theorem execute_eq_ok {w w' : Ledger} {ix : ExecInstruction} (h : c.execute w ix = .ok w') :
    ∃ o, threadExec c.env c.cpi (c.args ix) w = .ok (w', o) := by
  simp only [execute, bind_eq_ok, require_eq_ok, exists_and_left, exists_const, map_eq_ok,
    Prod.exists] at h
  obtain ⟨-, u, o, hexec, rfl⟩ := h
  exact ⟨o, hexec⟩

theorem executeAll_append {ixs : List ExecInstruction} {ix : ExecInstruction} {w w' : Ledger} :
    c.executeAll (ixs ++ [ix]) w = .ok w' ↔
      ∃ u, c.executeAll ixs w = .ok u ∧ c.execute u ix = .ok w' := by
  simp [executeAll, List.foldlM_append]

/-- The run lemma: a transaction on a thread is a run of the thread. -/
theorem reachable_executeAll {thread : Pubkey} {ixs : List ExecInstruction}
    (hthread : ∀ ix ∈ ixs, ix.thread = thread) {w w' : Ledger} (h : Reachable c.env thread w)
    (hrun : c.executeAll ixs w = .ok w') : Reachable c.env thread w' := by
  induction ixs generalizing w with
  | nil =>
    obtain rfl := pure_eq_ok.mp hrun
    exact h
  | cons ix ixs ih =>
    simp only [executeAll, List.foldlM_cons, bind_eq_ok] at hrun
    obtain ⟨u, hu, hrest⟩ := hrun
    obtain ⟨o, hexec⟩ := c.execute_eq_ok hu
    obtain ⟨t, -, hstep⟩ := exec_step hexec
    have heq : (c.args ix).thread = thread := hthread ix List.mem_cons_self
    rw [heq] at hstep
    obtain ⟨w₀, events, hnone, hr⟩ := h
    refine ih (fun ix' hix' => hthread ix' (List.mem_cons_of_mem _ hix')) ?_ hrest
    exact ⟨w₀, _, hnone, hr.append (.cons hstep (.nil u))⟩

end Chain

/-- The signal that `simulate_transaction` extracts: that of the stored thread, and none if
there is no thread. -/
def pendingSignal (thread : Pubkey) (w : Ledger) : Signal :=
  match w.threadAt thread with
  | some t => t.fiberSignal
  | none => .none

/-- Neither a chain nor a close is pending, or there is no thread. -/
def Settled (thread : Pubkey) (w : Ledger) : Prop :=
  ∀ t, w.threadAt thread = some t → t.fiberSignal ≠ .chain ∧ t.fiberSignal ≠ .close

theorem settled_iff {thread : Pubkey} {w : Ledger} :
    Settled thread w ↔ pendingSignal thread w ≠ .chain ∧ pendingSignal thread w ≠ .close := by
  unfold Settled pendingSignal
  cases w.threadAt thread with
  | none => simp
  | some t => simp

/-- The simulation of a transaction ends as the transaction would. -/
def ExecutorLogic.Agrees (x : ExecutorLogic) (c : Chain) (thread : Pubkey) (w : Ledger) : Prop :=
  ∀ ixs s units, x.simulateTransaction ixs thread = .ok (s, units) →
    ∃ w', c.executeAll ixs w = .ok w' ∧ pendingSignal thread w' = s

/-- The execution ends a chain: its signal is neither a chain nor a close and the trigger
does not close the thread by itself, or the callee has closed the thread. -/
def EndsChain (c : Chain) (w : Ledger) (ix : ExecInstruction) : Prop :=
  ∀ w' o, threadExec c.env c.cpi (c.args ix) w = .ok (w', o) →
    w'.threadAt ix.thread = none ∨ ∃ s t, o = .fiber s ∧ w.threadAt ix.thread = some t ∧
      s ≠ .chain ∧ s ≠ .close ∧ t.trigger.isImmediate = false

theorem exec_settled_iff {e : Env} {cpi : Cpi} {a : ExecArgs} {w w' : Ledger} {o : Outcome}
    (h : threadExec e cpi a w = .ok (w', o)) :
    Settled a.thread w' ↔ w'.threadAt a.thread = none ∨ ∃ s t, o = .fiber s ∧
      w.threadAt a.thread = some t ∧ s ≠ .chain ∧ s ≠ .close ∧ t.trigger.isImmediate = false := by
  cases ht' : w'.threadAt a.thread with
  | none =>
    refine iff_of_true (fun t' hsome => ?_) (Or.inl rfl)
    rw [ht'] at hsome
    exact absurd hsome (by simp)
  | some t' =>
    have hsettled : Settled a.thread w' ↔ t'.fiberSignal ≠ .chain ∧ t'.fiberSignal ≠ .close := by
      rw [settled_iff, pendingSignal, ht']
    rw [hsettled]
    cases o with
    | closePath =>
      obtain ⟨t, ix, called, returned, -, -, -, hclose, -, -, hexit⟩ := threadExec_closePath h
      obtain rfl := Ledger.eq_of_threadAt_exitThread hexit ht'
      simp [hclose]
    | fiber s =>
      obtain ⟨x⟩ := threadExec_fiber h
      obtain rfl := x.eq_finished ht'
      rw [x.finished_fiberSignal, x.stored]
      by_cases hchain : s = .chain
      · simp [hchain]
      · by_cases hclose : s = .close ∨ x.thread.trigger.isImmediate = true
        · simp only [hchain, hclose, if_true, if_false]
          rcases hclose with hclose | himmediate
          · simp [hclose]
          · simp [himmediate]
        · simp only [not_or, Bool.not_eq_true] at hclose
          simp [hchain, hclose.1, hclose.2]

/-- The exact condition: no fiber that a chain leads to within the batch is empty, and
where four executions chain the fifth one ends the chain. -/
def NothingLeft (x : ExecutorLogic) (c : Chain) (thread : Pubkey) (t : Thread) (start : UInt8)
    (w : Ledger) : Prop :=
  (∀ k, 0 < k → k < maxBatchedExecs → x.Chained thread t start k →
    ¬ x.EmptyFiber thread (ExecutorLogic.cursorAt t.fiberIds start k)) ∧
  (x.Chained thread t start (maxBatchedExecs - 1) → ∀ u ix,
    c.executeAll (x.execs thread t start (maxBatchedExecs - 1)) w = .ok u →
    x.execAt thread t start (maxBatchedExecs - 1) = some ix → EndsChain c u ix)

namespace ExecutorLogic

variable {x : ExecutorLogic} {c : Chain} {thread : Pubkey} {t : Thread} {start : UInt8}
  {w w' : Ledger}

theorem buildThreadExecBaseAccounts_thread {fiber : Pubkey} {accounts : ThreadExecAccounts}
    (h : x.buildThreadExecBaseAccounts thread t fiber = .ok accounts) :
    accounts.thread = thread := by
  simp only [buildThreadExecBaseAccounts, bind_eq_ok, pure_eq_ok] at h
  obtain ⟨config, -, rfl⟩ := h
  rfl

/-- An execution names the thread and the fiber it is for. -/
theorem execAt_names {k : ℕ} {ix : ExecInstruction} (h : x.execAt thread t start k = some ix) :
    ix.thread = thread ∧ ix.fiberCursor = cursorAt t.fiberIds start k := by
  unfold execAt at h
  split at h
  · rename_i o fee hbuild
    subst h
    simp only [buildThreadExecIx, bind_eq_ok] at hbuild
    obtain ⟨data, -, fiber, -, hbuild⟩ := hbuild
    split_ifs at hbuild
    · exact absurd (pure_eq_ok.mp hbuild) (by simp)
    · simp only [bind_eq_ok, pure_eq_ok, Prod.mk.injEq, Option.some.injEq] at hbuild
      obtain ⟨ix', hix, rfl, -⟩ := hbuild
      simp only [buildExecuteInstruction, bind_eq_ok, Prod.exists, pure_eq_ok] at hix
      obtain ⟨compiled, rest, -, -, -, accounts, haccounts, remaining, -, rfl⟩ := hix
      exact ⟨buildThreadExecBaseAccounts_thread haccounts, rfl⟩
  · exact absurd h (by simp)

theorem execAt_thread {k : ℕ} {ix : ExecInstruction} (h : x.execAt thread t start k = some ix) :
    ix.thread = thread :=
  (execAt_names h).1

theorem execs_thread {k : ℕ} {ix : ExecInstruction} (h : ix ∈ x.execs thread t start k) :
    ix.thread = thread := by
  obtain ⟨i, -, hix⟩ := List.mem_filterMap.mp h
  exact execAt_thread hix

theorem buildCloseThreadExec_thread {ix : ExecInstruction}
    (h : x.buildCloseThreadExec thread t = .ok ix) : ix.thread = thread := by
  simp only [buildCloseThreadExec, bind_eq_ok, pure_eq_ok] at h
  obtain ⟨accounts, haccounts, rfl⟩ := h
  exact buildThreadExecBaseAccounts_thread haccounts

/-- What the first executions leave is what their simulation showed. -/
theorem Signals.pendingSignal {k : ℕ} {s : Signal} (h : x.Signals thread t start k s)
    (hagrees : x.Agrees c thread w)
    (hrun : c.executeAll (x.execs thread t start k) w = .ok w') : pendingSignal thread w' = s := by
  obtain ⟨units, hsim⟩ := h
  obtain ⟨u, hu, hs⟩ := hagrees _ _ _ hsim
  rw [hrun] at hu
  rw [Except.ok.inj hu]
  exact hs

theorem Signals.unique {k : ℕ} {s s' : Signal} (h : x.Signals thread t start k s)
    (h' : x.Signals thread t start k s') : s = s' := by
  obtain ⟨units, hsim⟩ := h
  obtain ⟨units', hsim'⟩ := h'
  rw [hsim] at hsim'
  exact (Prod.mk.inj (Except.ok.inj hsim')).1

/-- A chain within the batch that ends otherwise did not get to an empty fiber, nor to
five executions. -/
theorem Reached.nothingLeft {k : ℕ} (h : x.Reached thread t start k) (hk : k < maxBatchedExecs)
    {s : Signal} (hs : x.Signals thread t start k s) (hne : s ≠ .chain) :
    NothingLeft x c thread t start w := by
  have hshort : ∀ k', x.Chained thread t start k' → k' < k := by
    intro k' hchained
    by_contra hge
    exact hne (hs.unique (hchained k h.pos (not_lt.mp hge)))
  constructor
  · intro k' hpos hk' hchained
    obtain ⟨ix, hix⟩ := h.built k' (hshort k' hchained)
    exact not_emptyFiber hix
  · intro hchained
    have hlt := hshort _ hchained
    omega

/-- A close that follows a signalled close takes the close path and leaves no thread. -/
theorem settled_of_close (hreach : Reachable c.env thread w) (hdispatch : Dispatches c.env c.cpi)
    (hclose : pendingSignal thread w = .close) {ix : ExecInstruction} (hix : ix.thread = thread)
    (hrun : c.execute w ix = .ok w') : Settled thread w' := by
  subst hix
  obtain ⟨o, hexec⟩ := c.execute_eq_ok hrun
  have hpath : o = .closePath := by
    cases o with
    | closePath => rfl
    | fiber s =>
      obtain ⟨y⟩ := threadExec_fiber hexec
      have hstored : w.threadAt ix.thread = some y.thread := y.stored
      unfold Client.pendingSignal at hclose
      rw [hstored] at hclose
      exact absurd hclose y.notClosing
  subst hpath
  have hnone : w'.threadAt ix.thread = none :=
    closePath_closes (a := c.args ix) hreach hdispatch hexec
  intro t' ht'
  rw [hnone] at ht'
  exact absurd ht' (by simp)

end ExecutorLogic

open ExecutorLogic in
/-- A batch without a continuation leaves nothing pending on the chain, or no thread, if and
only if no fiber that a chain led to was empty and a fifth execution ended the chain. -/
theorem finished_batch_settled_iff {x : ExecutorLogic} {c : Chain} {thread : Pubkey} {t : Thread}
    {overrideFiberCursor : Option UInt8} {w w' : Ledger} {b : Batch}
    (hreach : Reachable c.env thread w) (hdispatch : Dispatches c.env c.cpi)
    (hagrees : x.Agrees c thread w)
    (hbuild : x.buildExecuteTransaction thread t overrideFiberCursor = .ok b) (hne : b.ixs ≠ [])
    (hcont : b.needsContinuation = false) (hrun : c.executeAll b.ixs w = .ok w') :
    Settled thread w' ↔
      NothingLeft x c thread t (overrideFiberCursor.getD t.fiberCursor) w := by
  cases buildExecuteTransaction_exit x thread t hbuild hne with
  | maxBatch hreached hixs _ =>
    obtain ⟨ix, hix⟩ := hreached.built (maxBatchedExecs - 1) (by decide)
    rw [hixs, show maxBatchedExecs = maxBatchedExecs - 1 + 1 from rfl, execs_succ hix,
      c.executeAll_append] at hrun
    obtain ⟨u, hu, hlast⟩ := hrun
    obtain ⟨o, hexec⟩ := c.execute_eq_ok hlast
    have hends := exec_settled_iff hexec
    have hthread : (c.args ix).thread = thread := execAt_thread hix
    rw [hthread] at hends
    constructor
    · intro hsettled
      refine ⟨fun k hpos hk _ => ?_, fun _ u' ix' hu' hix' v p hexec' => ?_⟩
      · obtain ⟨ix', hix'⟩ := hreached.built k hk
        exact not_emptyFiber hix'
      · rw [hu] at hu'
        obtain rfl := Except.ok.inj hu'
        rw [hix] at hix'
        obtain rfl := Option.some.inj hix'
        rw [hexec] at hexec'
        obtain ⟨rfl, rfl⟩ := Prod.mk.inj (Except.ok.inj hexec')
        rw [execAt_thread hix]
        exact hends.mp hsettled
    · rintro ⟨-, hfifth⟩
      have hchained : x.Chained thread t (overrideFiberCursor.getD t.fiberCursor)
          (maxBatchedExecs - 1) := by
        intro j hpos hj
        refine hreached.chained j hpos ?_
        unfold maxBatchedExecs at hj ⊢
        omega
      have hfinal := hfifth hchained u ix hu hix w' o hexec
      rw [execAt_thread hix] at hfinal
      exact hends.mpr hfinal
  | emptyFiber k hreached hk hchain hempty hixs _ =>
    rw [hixs] at hrun
    have hpending := hchain.pendingSignal hagrees hrun
    constructor
    · intro hsettled
      exact absurd hpending (settled_iff.mp hsettled).1
    · rintro ⟨hfull, -⟩
      refine absurd hempty (hfull k hreached.pos hk fun j hpos hj => ?_)
      rcases hj.lt_or_eq with hlt | rfl
      · exact hreached.chained j hpos hlt
      · exact hchain
  | full k _ _ _ _ htrue _ =>
    rw [hcont] at htrue
    exact absurd htrue (by simp)
  | closing k ix hreached hk hclose hix hixs _ =>
    refine iff_of_true ?_ (hreached.nothingLeft hk hclose (by simp))
    rw [hixs, c.executeAll_append] at hrun
    obtain ⟨u, hu, hlast⟩ := hrun
    exact settled_of_close (c.reachable_executeAll (fun ix hmem => execs_thread hmem) hreach hu)
      hdispatch (hclose.pendingSignal hagrees hu) (buildCloseThreadExec_thread hix) hlast
  | deferred k _ _ _ _ htrue =>
    rw [hcont] at htrue
    exact absurd htrue (by simp)
  | quiet k s hreached hk hs hchain hclose hixs _ =>
    refine iff_of_true (settled_iff.mpr ?_) (hreached.nothingLeft hk hs hchain)
    rw [hixs] at hrun
    rw [hs.pendingSignal hagrees hrun]
    exact ⟨hchain, hclose⟩

/-! ## Batches of a memo thread -/

/-- The chain of the small world, where every memo returns the signal. -/
def sampleChain (s : Signal) : Chain where
  env := sampleEnv
  cpi := fun ix w =>
    match closeArgs ix with
    | some a => (threadClose sampleEnv a w).map (·, none)
    | none => memoCpi s ix w
  config := sampleConfig
  clock := ⟨100, 1, 100⟩

theorem sampleChain_dispatches (s : Signal) :
    Dispatches (sampleChain s).env (sampleChain s).cpi := by
  intro ix a w w' returned hargs hcall
  simp only [sampleChain, hargs, map_eq_ok, Prod.mk.injEq] at hcall
  obtain ⟨u, hclose, rfl, -⟩ := hcall
  exact hclose

def computeBudgetProgram : Pubkey :=
  0x403a9b432c6b12f7c5bbe58cbce79bc372baadecff321721e56f460603#256

/-- The accounts of an instruction, with 3 as the address of the configuration. -/
def accountKeys (ix : ExecInstruction) : List Pubkey :=
  [ix.executor, ix.thread, ix.fiber, 3, ix.admin, ix.nonceAccount.getD ix.programId,
    ix.recentBlockhashes.getD ix.programId, systemProgram] ++
    ix.remainingAccounts.map AccountMeta.pubkey

/-- Bytes of a signed transaction with two compute budget instructions in front: signature,
header, distinct keys, blockhash and instructions. -/
def serializedSize (ixs : List ExecInstruction) : ℕ :=
  let keys := ixs.flatMap fun ix => ix.programId :: accountKeys ix
  65 + 3 + (1 + 32 * (computeBudgetProgram :: keys).dedup.length) + 32 +
    (1 + 8 + 12 + (ixs.map fun ix => 3 + (accountKeys ix).length + 10).sum)

/-- Executor 9 with a node that answers from the ledger. -/
def sampleExecutor (c : Chain) (w : Ledger) : ExecutorLogic where
  pubkey := 9
  forgoExecutorCommission := true
  programId := threadProgram
  fiberAtIndex := c.env.pubkey
  getAccount k :=
    match (w k).data with
    | .bytes data => .ok (some data)
    | .thread _ => .ok none
  fetchThreadConfig := .ok c.config
  estimateTransactionSizeWithBudget := serializedSize
  simulateTransaction ixs thread :=
    match c.executeAll ixs w with
    | .ok w' => .ok (pendingSignal thread w', 0)
    | .error _ => .error .simulation

theorem sampleExecutor_agrees (c : Chain) (thread : Pubkey) (w : Ledger) :
    (sampleExecutor c w).Agrees c thread w := by
  intro ixs s units hsim
  simp only [sampleExecutor] at hsim
  split at hsim
  · rename_i w' hrun
    exact ⟨w', hrun, (Prod.mk.inj (Except.ok.inj hsim)).1⟩
  · exact absurd hsim (by simp)

/-- The authority of thread 1 adds a memo under an index. -/
def memoFiber (i : UInt8) : FiberCreateArgs :=
  ⟨5, 1, sampleEnv.pubkey 1 i, i, FiberProgram.sampleMemo 1, 0, [], FiberProgram.insertionOrder⟩

/-- A memo is cleared. -/
def clearFiber (i : UInt8) : FiberUpdateArgs :=
  ⟨5, 1, sampleEnv.pubkey 1 i, i, none, none, false, none, FiberProgram.insertionOrder⟩

/-- Instructions on a new thread. -/
def setUp (trigger : Trigger) (ixs : List Ix) : Result Ledger :=
  (Ix.threadCreate (sampleCreate trigger) :: ixs).foldlM (fun w ix => process sampleEnv ix w)
    payerLedger

theorem setUp_reachable {trigger : Trigger} {ixs : List Ix} (hixs : ∀ ix ∈ ixs, ix.thread = 1)
    {w : Ledger} (h : setUp trigger ixs = .ok w) : Reachable sampleEnv 1 w := by
  simp only [setUp, List.foldlM_cons, bind_eq_ok] at h
  obtain ⟨u, hcreate, h⟩ := h
  have hr : Reachable sampleEnv 1 u := threadCreate_reachable rfl hcreate
  clear hcreate
  induction ixs generalizing u with
  | nil =>
    obtain rfl := pure_eq_ok.mp h
    exact hr
  | cons ix ixs ih =>
    simp only [List.foldlM_cons, bind_eq_ok] at h
    obtain ⟨v, hv, h⟩ := h
    obtain ⟨w₀, events, hnone, hrun⟩ := hr
    have hix : ix.thread = 1 := hixs ix List.mem_cons_self
    have hstep : Step sampleEnv 1 u (.instruction ix) v := ⟨hix, hv⟩
    exact ih (fun ix' hmem => hixs ix' (List.mem_cons_of_mem _ hmem)) v h
      ⟨w₀, _, hnone, hrun.append (.cons hstep (.nil v))⟩

/-- The batch that executor 9 builds for thread 1 and what its execution leaves. -/
def batchOf (s : Signal) (w : Ledger) : Option (Thread × Batch × Ledger) := do
  let t ← w.threadAt 1
  let b ← ((sampleExecutor (sampleChain s) w).buildExecuteTransaction 1 t none).toOption
  let w' ← ((sampleChain s).executeAll b.ixs w).toOption
  pure (t, b, w')

/-- A finished batch of a reachable thread, built with a simulation that agrees with the
chain: its length and the signal that its execution leaves. -/
def Leaves (s : Signal) (length : ℕ) (pending : Signal) : Prop :=
  ∃ w t b w', Reachable sampleEnv 1 w ∧ w.threadAt 1 = some t ∧
    Dispatches sampleEnv (sampleChain s).cpi ∧
    (sampleExecutor (sampleChain s) w).Agrees (sampleChain s) 1 w ∧
    (sampleExecutor (sampleChain s) w).buildExecuteTransaction 1 t none = .ok b ∧
    b.ixs.length = length ∧ b.needsContinuation = false ∧
    (sampleChain s).executeAll b.ixs w = .ok w' ∧ pendingSignal 1 w' = pending

theorem leaves_of_batchOf (trigger : Trigger) (ixs : List Ix) {s pending : Signal} {length : ℕ}
    (hixs : ∀ ix ∈ ixs, ix.thread = 1)
    (h : ((setUp trigger ixs).toOption.bind fun w => (batchOf s w).map fun r =>
      (r.2.1.ixs.length, r.2.1.needsContinuation, pendingSignal 1 r.2.2)) =
        some (length, false, pending)) : Leaves s length pending := by
  obtain ⟨w, hw, hbatch⟩ := Option.bind_eq_some_iff.mp h
  obtain ⟨⟨t, b, w'⟩, hrun, hfields⟩ := Option.map_eq_some_iff.mp hbatch
  simp only [Prod.mk.injEq] at hfields
  simp only [batchOf, Option.bind_eq_bind, Option.bind_eq_some_iff, Option.pure_def,
    Option.some.injEq, Prod.mk.injEq] at hrun
  obtain ⟨t₀, ht, b₀, hb, u, hu, rfl, rfl, rfl⟩ := hrun
  have hsetUp : setUp trigger ixs = .ok w := toOption_eq_some.mp hw
  exact ⟨w, t₀, b₀, u, setUp_reachable hixs hsetUp, ht, sampleChain_dispatches s,
    sampleExecutor_agrees _ 1 w, toOption_eq_some.mp hb, hfields.1, hfields.2.1,
    toOption_eq_some.mp hu, hfields.2.2⟩

set_option maxRecDepth 20000 in
/-- Three batches: an immediate thread with five fibers, an interval thread in front of a
cleared fiber, and an immediate thread with two fibers. -/
theorem batches_evaluated :
    Leaves .chain 5 .close ∧ Leaves .chain 1 .chain ∧ Leaves .chain 3 .none := by
  refine ⟨?_, ?_, ?_⟩
  · refine leaves_of_batchOf (.immediate 0) [.fiberCreate (memoFiber 1), .fiberCreate (memoFiber 2),
      .fiberCreate (memoFiber 3), .fiberCreate (memoFiber 4)] ?_ ?_
    · intro ix hix
      fin_cases hix <;> rfl
    · decide +kernel
  · refine leaves_of_batchOf (.interval 10 false 0)
      [.fiberCreate (memoFiber 1), .fiberUpdate (clearFiber 1)] ?_ ?_
    · intro ix hix
      fin_cases hix <;> rfl
    · decide +kernel
  · refine leaves_of_batchOf (.immediate 0) [.fiberCreate (memoFiber 1)] ?_ ?_
    · intro ix hix
      fin_cases hix
      rfl
    · decide +kernel

/-- An immediate thread chains through five fibers: the close that its trigger signals is
left to nobody. A chain in front of a cleared fiber is left on. -/
theorem finished_batch_leaves_pending :
    Leaves .chain 5 .close ∧ Leaves .chain 1 .chain :=
  ⟨batches_evaluated.1, batches_evaluated.2.1⟩

/-- With two fibers the same thread is closed in its batch. -/
theorem finished_batch_closes :
    ∃ w t b w', Reachable sampleEnv 1 w ∧
      (sampleExecutor (sampleChain .chain) w).buildExecuteTransaction 1 t none = .ok b ∧
      b.ixs.length = 3 ∧ b.needsContinuation = false ∧
      (sampleChain .chain).executeAll b.ixs w = .ok w' ∧ Settled 1 w' ∧
      NothingLeft (sampleExecutor (sampleChain .chain) w) (sampleChain .chain) 1 t t.fiberCursor
        w := by
  obtain ⟨w, t, b, w', hreach, -, hdispatch, hagrees, hbuild, hlength, hcont, hrun, hpending⟩ :=
    batches_evaluated.2.2
  have hne : b.ixs ≠ [] := by
    intro hnil
    rw [hnil] at hlength
    exact absurd hlength (by decide)
  have hsettled : Settled 1 w' := by
    rw [settled_iff, hpending]
    decide
  exact ⟨w, t, b, w', hreach, hbuild, hlength, hcont, hrun, hsettled,
    (finished_batch_settled_iff hreach hdispatch hagrees hbuild hne hcont hrun).mp hsettled⟩

end Antegen.Client
