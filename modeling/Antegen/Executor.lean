import Antegen.FiberState
import Antegen.Payments
import Antegen.Signals

/-!
# The executor's transactions

`build_execute_transaction` starts a batch with one fiber and goes on as long as the
simulation of the batch ends in a chain. The requests to a node, the size of a
serialized transaction and the simulation are parameters. The loop has five exits:
five executions, an empty fiber, an instruction that does not fit, a close, and any
other signal.
-/
namespace Antegen.Client

/-- Why no batch is built. -/
inductive ClientError
  | rpc
  | fiberNotFound (fiber : Pubkey)
  | program (e : Error)
  | exceedsTransactionSize (thread : Pubkey)
  | simulation
  deriving DecidableEq, Repr

abbrev ClientResult (α : Type) := Except ClientError α

/-- A failure in code that the client shares with the programs. -/
def shared {α : Type} : Result α → ClientResult α
  | .ok a => .ok a
  | .error e => .error (.program e)

@[simp] theorem shared_eq_ok {α : Type} {x : Result α} {a : α} :
    shared x = .ok a ↔ x = .ok a := by
  cases x <;> simp [shared]

/-- `sysvar::recent_blockhashes::ID`. -/
def recentBlockhashesSysvar : Pubkey :=
  0x40a92e06d844b31ab245315c03cf8897d2735f848ae08e562c1917d5a706#256

/-- `PACKET_DATA_SIZE`. -/
def maxTransactionSize : ℕ := 1232

def maxBatchedExecs : ℕ := 5

/-- The named accounts of `ThreadExec`, besides the configuration and the system program. -/
structure ThreadExecAccounts where
  executor : Pubkey
  thread : Pubkey
  fiber : Pubkey
  admin : Pubkey
  nonceAccount : Option Pubkey
  recentBlockhashes : Option Pubkey
  deriving DecidableEq, Repr

/-- An `exec_thread` instruction as it is sent. -/
structure ExecInstruction extends ThreadExecAccounts where
  programId : Pubkey
  remainingAccounts : List AccountMeta
  forgoCommission : Bool
  fiberCursor : UInt8
  deriving DecidableEq, Repr

structure ExecutorLogic where
  pubkey : Pubkey
  forgoExecutorCommission : Bool
  programId : Pubkey
  fiberAtIndex : Pubkey → UInt8 → Pubkey
  getAccount : Pubkey → ClientResult (Option (List UInt8))
  fetchThreadConfig : ClientResult ThreadConfig
  estimateTransactionSizeWithBudget : List ExecInstruction → ℕ
  simulateTransaction : List ExecInstruction → Pubkey → ClientResult (Signal × ℕ)

/-- What `build_execute_transaction` returns. -/
structure Batch where
  ixs : List ExecInstruction
  priorityFee : ℕ
  needsContinuation : Bool
  nextFiberCursor : Option UInt8
  deriving DecidableEq, Repr

def nextFiberInSequence (fiberIds : List UInt8) (currentCursor : UInt8) : UInt8 :=
  cyclicNext fiberIds currentCursor

namespace ExecutorLogic

variable (x : ExecutorLogic) (thread : Pubkey) (t : Thread)

def wouldFitInTransaction (ixs : List ExecInstruction) : Bool :=
  x.estimateTransactionSizeWithBudget ixs ≤ maxTransactionSize

def fetchFiberAccount (fiber : Pubkey) : ClientResult (List UInt8) := do
  match ← x.getAccount fiber with
  | some data => pure data
  | none => throw (.fiberNotFound fiber)

def buildThreadExecBaseAccounts (fiber : Pubkey) : ClientResult ThreadExecAccounts := do
  let config ← x.fetchThreadConfig
  pure
    { executor := x.pubkey
      thread := thread
      fiber := fiber
      admin := config.admin
      nonceAccount := if t.hasNonceAccount then some t.nonceAccount else none
      recentBlockhashes := if t.hasNonceAccount then some recentBlockhashesSysvar else none }

/-- The table of a compiled instruction as remaining accounts, with the executor for the
placeholder. The flags are read off the position as `decompile_instruction` does. -/
def addCompiledAccounts (compiled : CompiledInstructionV0) : Result (List AccountMeta) :=
  compiled.accounts.zipIdx.mapM fun (pubkey, index) => do
    let isWritable ← decompileWritable compiled (UInt8.ofNat index)
    pure ⟨if pubkey = payerPubkey then x.pubkey else pubkey, false, isWritable⟩

/-- The audit decompiles the instruction for the log. It ends the build only by a panic. -/
def auditCompiled (compiled : CompiledInstructionV0) : Result Unit :=
  match decompileInstruction compiled with
  | .error .panic => .error .panic
  | _ => .ok ()

def buildExecuteInstruction (fiberCursor : UInt8) (compiledInstruction : List UInt8) :
    ClientResult ExecInstruction := do
  let (compiled, _) ← shared (ofOption .borsh (compiledInstructionCodec.dec compiledInstruction))
  shared (auditCompiled compiled)
  let accounts ← x.buildThreadExecBaseAccounts thread t (x.fiberAtIndex thread fiberCursor)
  let remaining ← shared (x.addCompiledAccounts compiled)
  pure
    { toThreadExecAccounts := accounts
      programId := x.programId
      remainingAccounts := remaining
      forgoCommission := x.forgoExecutorCommission
      fiberCursor := fiberCursor }

/-- The instruction for a fiber, or none if the fiber is empty, and the larger priority fee. -/
def buildThreadExecIx (priorityFee : ℕ) (fiberCursor : UInt8) :
    ClientResult (Option ExecInstruction × ℕ) := do
  let data ← x.fetchFiberAccount (x.fiberAtIndex thread fiberCursor)
  let fiber ← shared (Fiber.tryDeserialize data)
  if fiber.compiledInstruction = [] then pure (none, priorityFee)
  else
    let ix ← x.buildExecuteInstruction thread t fiberCursor fiber.compiledInstruction
    pure (some ix, max priorityFee fiber.priorityFee)

def buildCloseThreadExec : ClientResult ExecInstruction := do
  let accounts ← x.buildThreadExecBaseAccounts thread t
    (x.fiberAtIndex thread (t.fiberIds.headD 0))
  pure
    { toThreadExecAccounts := accounts
      programId := x.programId
      remainingAccounts := (t.fiberIds.map fun i => ⟨x.fiberAtIndex thread i, false, true⟩) ++
        [⟨thread, false, true⟩, ⟨t.authority, false, true⟩, ⟨x.programId, false, false⟩,
          ⟨fiberProgram, false, false⟩]
      forgoCommission := x.forgoExecutorCommission
      fiberCursor := 0 }

/-- The loop, with the number of executions that may still be added. -/
def batchLoop : ℕ → UInt8 → Batch → ClientResult Batch
  | 0, _, b => pure b
  | n + 1, cursor, b => do
    let (signal, _) ← x.simulateTransaction b.ixs thread
    match signal with
    | .chain =>
      let cursor := nextFiberInSequence t.fiberIds cursor
      match ← x.buildThreadExecIx thread t b.priorityFee cursor with
      | (none, _) => pure b
      | (some ix, fee) =>
        if x.wouldFitInTransaction (b.ixs ++ [ix]) then
          batchLoop n cursor { b with ixs := b.ixs ++ [ix], priorityFee := fee }
        else
          pure { b with
            priorityFee := fee, needsContinuation := true, nextFiberCursor := some cursor }
    | .close =>
      let ix ← x.buildCloseThreadExec thread t
      if x.wouldFitInTransaction (b.ixs ++ [ix]) then pure { b with ixs := b.ixs ++ [ix] }
      else pure { b with needsContinuation := true }
    | _ => pure b

def buildExecuteTransaction (overrideFiberCursor : Option UInt8) : ClientResult Batch := do
  let cursor := overrideFiberCursor.getD t.fiberCursor
  match ← x.buildThreadExecIx thread t 0 cursor with
  | (none, _) => pure ⟨[], 0, false, none⟩
  | (some ix, fee) =>
    if x.wouldFitInTransaction [ix] then
      x.batchLoop thread t (maxBatchedExecs - 1) cursor ⟨[ix], fee, false, none⟩
    else throw (.exceedsTransactionSize thread)

/-! ## The exits of the loop -/

/-- The fiber that a number of chained executions leads to. -/
def cursorAt (fiberIds : List UInt8) (start : UInt8) (k : ℕ) : UInt8 :=
  (nextFiberInSequence fiberIds)^[k] start

/-- The fiber holds no instruction. -/
def EmptyFiber (cursor : UInt8) : Prop :=
  ∃ data fiber, x.getAccount (x.fiberAtIndex thread cursor) = .ok (some data) ∧
    Fiber.tryDeserialize data = .ok fiber ∧ fiber.compiledInstruction = []

variable (start : UInt8)

/-- The execution of the fiber that `k` chained ones lead to, if it can be built. -/
def execAt (k : ℕ) : Option ExecInstruction :=
  match x.buildThreadExecIx thread t 0 (cursorAt t.fiberIds start k) with
  | .ok (ix, _) => ix
  | .error _ => none

/-- The first `k` executions of a chain. -/
def execs (k : ℕ) : List ExecInstruction :=
  (List.range k).filterMap (x.execAt thread t start)

/-- The simulation of the first `k` executions ends with the signal. -/
def Signals (k : ℕ) (s : Signal) : Prop :=
  ∃ units, x.simulateTransaction (x.execs thread t start k) thread = .ok (s, units)

/-- Each of the first `k` executions chains to the next one. -/
def Chained (k : ℕ) : Prop := ∀ j, 0 < j → j ≤ k → x.Signals thread t start j .chain

/-- The loop holds `k` executions. -/
structure Reached (k : ℕ) : Prop where
  pos : 0 < k
  chained : ∀ j, 0 < j → j < k → x.Signals thread t start j .chain
  built : ∀ i < k, ∃ ix, x.execAt thread t start i = some ix

/-- How a batch ends. -/
inductive Exit (b : Batch) : Prop
  | maxBatch : x.Reached thread t start maxBatchedExecs →
      b.ixs = x.execs thread t start maxBatchedExecs → b.needsContinuation = false → Exit b
  | emptyFiber (k : ℕ) : x.Reached thread t start k → k < maxBatchedExecs →
      x.Signals thread t start k .chain → x.EmptyFiber thread (cursorAt t.fiberIds start k) →
      b.ixs = x.execs thread t start k → b.needsContinuation = false → Exit b
  | full (k : ℕ) : x.Reached thread t start k → k < maxBatchedExecs →
      x.Signals thread t start k .chain → b.ixs = x.execs thread t start k →
      b.needsContinuation = true → b.nextFiberCursor = some (cursorAt t.fiberIds start k) → Exit b
  | closing (k : ℕ) (ix : ExecInstruction) : x.Reached thread t start k → k < maxBatchedExecs →
      x.Signals thread t start k .close → x.buildCloseThreadExec thread t = .ok ix →
      b.ixs = x.execs thread t start k ++ [ix] → b.needsContinuation = false → Exit b
  | deferred (k : ℕ) : x.Reached thread t start k → k < maxBatchedExecs →
      x.Signals thread t start k .close → b.ixs = x.execs thread t start k →
      b.needsContinuation = true → Exit b
  | quiet (k : ℕ) (s : Signal) : x.Reached thread t start k → k < maxBatchedExecs →
      x.Signals thread t start k s → s ≠ .chain → s ≠ .close →
      b.ixs = x.execs thread t start k → b.needsContinuation = false → Exit b

section Built

variable {x thread t start}

theorem fetchFiberAccount_eq_ok {fiber : Pubkey} {data : List UInt8} :
    x.fetchFiberAccount fiber = .ok data ↔ x.getAccount fiber = .ok (some data) := by
  unfold fetchFiberAccount
  simp only [bind_eq_ok]
  constructor
  · rintro ⟨o, ho, h⟩
    cases o with
    | none => exact absurd h (by simp [throw, throwThe, MonadExceptOf.throw])
    | some d => rw [ho, pure_eq_ok.mp h]
  · intro h
    exact ⟨some data, h, rfl⟩

/-- Whether an instruction is built depends on the fiber, and which one not on the fee. -/
theorem buildThreadExecIx_cases {fee fee' : ℕ} {cursor : UInt8} {o : Option ExecInstruction}
    (h : x.buildThreadExecIx thread t fee cursor = .ok (o, fee')) :
    (o = none ∧ x.EmptyFiber thread cursor) ∨
      (∃ ix fee₀, o = some ix ∧ x.buildThreadExecIx thread t 0 cursor = .ok (some ix, fee₀) ∧
        ¬ x.EmptyFiber thread cursor) := by
  simp only [buildThreadExecIx, bind_eq_ok, shared_eq_ok, fetchFiberAccount_eq_ok] at h ⊢
  obtain ⟨data, hdata, fiber, hfiber, h⟩ := h
  by_cases hempty : fiber.compiledInstruction = []
  · rw [if_pos hempty] at h
    obtain ⟨rfl, -⟩ := Prod.mk.inj (pure_eq_ok.mp h)
    exact Or.inl ⟨rfl, data, fiber, hdata, hfiber, hempty⟩
  · rw [if_neg hempty] at h
    simp only [bind_eq_ok, pure_eq_ok, Prod.mk.injEq] at h
    obtain ⟨ix, hix, rfl, -⟩ := h
    refine Or.inr ⟨ix, max 0 fiber.priorityFee, rfl, ⟨data, hdata, fiber, hfiber, ?_⟩, ?_⟩
    · rw [if_neg hempty, bind_eq_ok]
      exact ⟨ix, hix, rfl⟩
    · rintro ⟨data', fiber', hdata', hfiber', hempty'⟩
      rw [hdata] at hdata'
      obtain rfl := Option.some.inj (Except.ok.inj hdata')
      rw [hfiber] at hfiber'
      obtain rfl := Except.ok.inj hfiber'
      exact hempty hempty'

theorem execAt_eq_some {fee fee' : ℕ} {k : ℕ} {ix : ExecInstruction}
    (h : x.buildThreadExecIx thread t fee (cursorAt t.fiberIds start k) = .ok (some ix, fee')) :
    x.execAt thread t start k = some ix := by
  rcases buildThreadExecIx_cases h with ⟨hnone, -⟩ | ⟨ix', fee₀, hsome, hbuild, -⟩
  · exact absurd hnone (by simp)
  · rw [execAt, hbuild, hsome]

/-- A fiber whose execution was built is not empty. -/
theorem not_emptyFiber {k : ℕ} {ix : ExecInstruction} (h : x.execAt thread t start k = some ix) :
    ¬ x.EmptyFiber thread (cursorAt t.fiberIds start k) := by
  unfold execAt at h
  split at h
  · rename_i o fee hbuild
    subst h
    rcases buildThreadExecIx_cases hbuild with ⟨hnone, -⟩ | ⟨ix', fee₀, -, -, hfull⟩
    · exact absurd hnone (by simp)
    · exact hfull
  · exact absurd h (by simp)

theorem execs_succ {k : ℕ} {ix : ExecInstruction} (h : x.execAt thread t start k = some ix) :
    x.execs thread t start (k + 1) = x.execs thread t start k ++ [ix] := by
  rw [execs, List.range_succ, List.filterMap_append]
  simp [h, execs]

theorem cursorAt_succ (fiberIds : List UInt8) (start : UInt8) (k : ℕ) :
    cursorAt fiberIds start (k + 1) = nextFiberInSequence fiberIds (cursorAt fiberIds start k) := by
  rw [cursorAt, Function.iterate_succ_apply']
  rfl

/-- One more execution that chains. -/
theorem Reached.succ {k : ℕ} (h : x.Reached thread t start k)
    (hchain : x.Signals thread t start k .chain) {ix : ExecInstruction}
    (hix : x.execAt thread t start k = some ix) : x.Reached thread t start (k + 1) := by
  refine ⟨by omega, fun j hpos hj => ?_, fun i hi => ?_⟩
  · by_cases hlast : j = k
    · rw [hlast]
      exact hchain
    · exact h.chained j hpos (by omega)
  · by_cases hlast : i = k
    · rw [hlast]
      exact ⟨ix, hix⟩
    · exact h.built i (by omega)

/-- The run lemma of the loop. -/
theorem batchLoop_exit {n k : ℕ} {b b' : Batch} (hk : k + 1 + n = maxBatchedExecs)
    (hreached : x.Reached thread t start (k + 1)) (hixs : b.ixs = x.execs thread t start (k + 1))
    (hcont : b.needsContinuation = false)
    (h : x.batchLoop thread t n (cursorAt t.fiberIds start k) b = .ok b') :
    x.Exit thread t start b' := by
  induction n generalizing k b with
  | zero =>
    obtain rfl := pure_eq_ok.mp h
    have hmax : k + 1 = maxBatchedExecs := hk
    rw [hmax] at hreached hixs
    exact .maxBatch hreached hixs hcont
  | succ n ih =>
    have hlt : k + 1 < maxBatchedExecs := by omega
    simp only [batchLoop, bind_eq_ok, Prod.exists] at h
    obtain ⟨signal, units, hsim, h⟩ := h
    rw [hixs] at hsim
    have hsignals : x.Signals thread t start (k + 1) signal := ⟨units, hsim⟩
    cases signal with
    | chain =>
      simp only [bind_eq_ok, Prod.exists, ← cursorAt_succ] at h
      obtain ⟨o, fee, hbuild, h⟩ := h
      cases o with
      | none =>
        obtain rfl := pure_eq_ok.mp h
        rcases buildThreadExecIx_cases hbuild with ⟨-, hempty⟩ | ⟨ix, -, hsome, -⟩
        · exact .emptyFiber (k + 1) hreached hlt hsignals hempty hixs hcont
        · exact absurd hsome (by simp)
      | some ix =>
        have hix := execAt_eq_some hbuild
        simp only at h
        split_ifs at h
        · refine ih (by omega) (hreached.succ hsignals hix) ?_ ?_ h
          · rw [execs_succ hix, ← hixs]
          · exact hcont
        · obtain rfl := pure_eq_ok.mp h
          exact .full (k + 1) hreached hlt hsignals hixs rfl rfl
    | close =>
      simp only [bind_eq_ok] at h
      obtain ⟨ix, hclose, h⟩ := h
      split_ifs at h
      · obtain rfl := pure_eq_ok.mp h
        exact .closing (k + 1) ix hreached hlt hsignals hclose (by rw [← hixs]) hcont
      · obtain rfl := pure_eq_ok.mp h
        exact .deferred (k + 1) hreached hlt hsignals hixs rfl
    | none =>
      obtain rfl := pure_eq_ok.mp h
      exact .quiet (k + 1) .none hreached hlt hsignals (by simp) (by simp) hixs hcont
    | again =>
      obtain rfl := pure_eq_ok.mp h
      exact .quiet (k + 1) .again hreached hlt hsignals (by simp) (by simp) hixs hcont
    | next index =>
      obtain rfl := pure_eq_ok.mp h
      exact .quiet (k + 1) (.next index) hreached hlt hsignals (by simp) (by simp) hixs hcont
    | update paused trigger index =>
      obtain rfl := pure_eq_ok.mp h
      exact .quiet (k + 1) (.update paused trigger index) hreached hlt hsignals (by simp) (by simp)
        hixs hcont

end Built

/-- Every batch with an instruction in it ends by one of the exits. -/
theorem buildExecuteTransaction_exit {overrideFiberCursor : Option UInt8} {b : Batch}
    (h : x.buildExecuteTransaction thread t overrideFiberCursor = .ok b) (hne : b.ixs ≠ []) :
    x.Exit thread t (overrideFiberCursor.getD t.fiberCursor) b := by
  simp only [buildExecuteTransaction, bind_eq_ok, Prod.exists] at h
  obtain ⟨o, fee, hbuild, h⟩ := h
  cases o with
  | none =>
    obtain rfl := pure_eq_ok.mp h
    exact absurd rfl hne
  | some ix =>
    simp only at h
    split_ifs at h
    · have hix : x.execAt thread t (overrideFiberCursor.getD t.fiberCursor) 0 = some ix :=
        execAt_eq_some hbuild
      refine batchLoop_exit (k := 0) rfl ⟨by omega, fun j hpos hj => ?_, fun i hi => ?_⟩ ?_ rfl h
      · omega
      · obtain rfl : i = 0 := by omega
        exact ⟨ix, hix⟩
      · rw [execs_succ hix]
        rfl

end ExecutorLogic

end Antegen.Client
