import Antegen.FiberIsolation
import Antegen.Payments
import Antegen.Signals

/-!
# Execution of a thread

`thread_exec` deserializes a copy of the thread, checks it, invokes the stored
instruction of one fiber, and applies the signal that the callee returned to its
copy. The copy is serialized at exit. The callee is any function on ledgers; its
return data is carried as the signal that its bytes decode to. A close that was
signalled before runs the thread's own close instruction instead of a fiber.
-/
namespace Antegen.ThreadProgram

/-- Address derivation, nonces and serialization, besides rent and the hashes. -/
structure Env extends Host, FiberProgram.Env where
  threadAddress : Pubkey → List UInt8 → UInt8 → Option Pubkey
  threadBump : Pubkey → List UInt8 → Option UInt8
  initialNonce : Pubkey → Pubkey → List UInt8
  nextNonce : Account → Pubkey → Pubkey → Result (List UInt8)
  threadBytes : Thread → List UInt8

/-- What `get_return_data` yields; the signal is missing if the bytes are none. -/
structure ReturnData where
  programId : Pubkey
  signal : Option Signal
  deriving DecidableEq, Repr

/-- Effect of an invoked instruction. -/
abbrev Cpi := Instruction → Ledger → Result (Ledger × Option ReturnData)

structure ExecArgs where
  executor : Pubkey
  thread : Pubkey
  fiber : Pubkey
  config : ThreadConfig
  admin : Pubkey
  nonceAccount : Option Pubkey
  recentBlockhashes : Option Pubkey
  remainingAccounts : List Pubkey
  clock : Clock
  forgoCommission : Bool
  fiberCursor : UInt8

/-- How a successful execution ends: by the close path or with a fiber's signal. -/
inductive Outcome
  | closePath
  | fiber (signal : Signal)
  deriving DecidableEq, Repr

def Env.dataBytes (e : Env) : AccountData → List UInt8
  | .bytes b => b
  | .thread t => e.threadBytes t

/-- The remaining accounts as they stand in a ledger. -/
def accountInfos (e : Env) (w : Ledger) (ks : List Pubkey) : List AccountInfo :=
  ks.map fun k => ⟨k, e.dataBytes (w k).data⟩

/-- The system program writes the next nonce into its account. -/
def advanceNonceAccount (e : Env) (w : Ledger) (nonce recent thread : Pubkey) : Result Ledger := do
  let out ← e.nextNonce (w nonce) recent thread
  w.writeData systemProgram nonce (.bytes out)

def advanceNonceIfRequired (e : Env) (a : ExecArgs) (t : Thread) (w : Ledger) : Result Ledger :=
  if t.hasNonceAccount then
    match a.nonceAccount, a.recentBlockhashes with
    | some nonce, some recent => advanceNonceAccount e w nonce recent a.thread
    | _, _ => .error (.thread .nonceRequired)
  else .ok w

/-- Seconds since the trigger was ready; a continuation of a chain is not tested. -/
def timeSinceReady (e : Env) (a : ExecArgs) (t : Thread) (w : Ledger) : Result ℤ :=
  if t.fiberSignal = .chain then .ok 0
  else validateTrigger e.toHost t a.clock (accountInfos e w a.remainingAccounts) a.thread

/-- The stored instruction of the fiber whose index is the executor's argument. -/
def fetchInstruction (e : Env) (a : ExecArgs) (w : Ledger) : Result Instruction := do
  require (a.fiber = e.pubkey a.thread a.fiberCursor) (.thread .wrongFiberIndex)
  let f ← FiberProgram.readFiber (w a.fiber).data
  require (f.thread = a.thread) (.thread .invalidFiberAccount)
  f.getInstruction a.executor

/-- Return data of another program than the invoked one is ignored. -/
def parseSignal (programId : Pubkey) : Option ReturnData → Signal
  | none => .none
  | some r => if r.programId = programId then r.signal.getD .none else .none

/-- The payments of an execution, from the executor's balance at its entry. -/
def settlePayments (a : ExecArgs) (since : ℤ) (start : ℕ) (w : Ledger) : Result Ledger := do
  let change ← checkI64 (asI64 (w a.executor).lamports - asI64 start)
  let p ← a.config.calculatePayments .binary64 since change a.forgoCommission
  a.config.forgoneCommission .binary64 since a.forgoCommission p
  distributePayments w a.thread a.executor a.admin p

/-- Payments are made when the chain ends. -/
def settle (a : ExecArgs) (s : Signal) (since : ℤ) (start : ℕ) (w : Ledger) : Result Ledger :=
  if s = .chain then .ok w else settlePayments a since start w

/-- The schedule moves on when the chain ends. -/
def reschedule (e : Env) (a : ExecArgs) (w : Ledger) (s : Signal) (t : Thread) : Result Thread :=
  if s = .chain then .ok t
  else updateSchedule e.toHost t a.clock (accountInfos e w a.remainingAccounts) a.thread

/-- Schedule and counters of the copy that will be stored. -/
def finalize (e : Env) (a : ExecArgs) (w : Ledger) (s : Signal) (t : Thread) : Result Thread := do
  let t ← reschedule e a w s t
  let n ← checkU64 (t.execCount + 1)
  pure { t with execCount := n, lastExecutor := a.executor }

/-- The close instruction, with the address of every fiber appended to it. -/
def closeInstruction (e : Env) (thread : Pubkey) (t : Thread) : Result Instruction := do
  let compiled ← ofOption .borsh (compiledInstructionCodec.fromSlice t.closeFiber)
  let ix ← decompileInstruction compiled
  pure { ix with
    accounts := ix.accounts ++ t.fiberIds.map fun i => ⟨e.pubkey thread i, false, true⟩ }

def execClose (e : Env) (cpi : Cpi) (a : ExecArgs) (t : Thread) (w : Ledger) : Result Ledger := do
  let ix ← closeInstruction e a.thread t
  let (w, _) ← cpi ix w
  w.exitThread a.thread t

def execFiber (e : Env) (cpi : Cpi) (a : ExecArgs) (t : Thread) (w : Ledger) :
    Result (Ledger × Signal) := do
  let start := (w a.executor).lamports
  let synced := t.sync a.fiberCursor
  synced.validateForExecution
  let w ← advanceNonceIfRequired e a synced w
  let since ← timeSinceReady e a synced w
  let ix ← fetchInstruction e a w
  let (w, returned) ← cpi ix w
  require ((w a.executor).data.isEmpty) (.thread .unauthorizedWrite)
  let s := synced.downgrade a.fiberCursor (parseSignal ix.programId returned)
  let w ← settle a s since start w
  let t ← finalize e a w s (synced.conclude s)
  let w ← w.exitThread a.thread t
  pure (w, s)

def threadExec (e : Env) (cpi : Cpi) (a : ExecArgs) (w : Ledger) : Result (Ledger × Outcome) := do
  let t ← w.loadThread a.thread
  require (e.threadAddress t.authority t.id t.bump = some a.thread) .constraintSeeds
  require (t.paused = false) (.thread .threadPaused)
  require (t.fiberIds ≠ []) (.thread .invalidThreadState)
  require (a.admin = a.config.admin) (.thread .invalidConfigAdmin)
  require (a.config.paused = false) (.thread .globalPauseActive)
  if t.fiberSignal = .close then
    (execClose e cpi a t w).map fun w => (w, .closePath)
  else
    (execFiber e cpi a t w).map fun (w, s) => (w, .fiber s)

/-! ## An execution taken apart -/

/-- The stages of a successful execution of a fiber, in their order: the ledger
`ready` after the nonce, `called` after the callee, and `paid` after the payments. -/
structure Execution (e : Env) (cpi : Cpi) (a : ExecArgs) (w w' : Ledger) (s : Signal) where
  thread : Thread
  stored : w.threadAt a.thread = some thread
  address : e.threadAddress thread.authority thread.id thread.bump = some a.thread
  active : thread.paused = false
  nonempty : thread.fiberIds ≠ []
  notClosing : thread.fiberSignal ≠ .close
  valid : (thread.sync a.fiberCursor).fiberCursor ∈ thread.fiberIds
  ready : Ledger
  advanced : advanceNonceIfRequired e a (thread.sync a.fiberCursor) w = .ok ready
  since : ℤ
  triggered : timeSinceReady e a (thread.sync a.fiberCursor) ready = .ok since
  instruction : Instruction
  fetched : fetchInstruction e a ready = .ok instruction
  called : Ledger
  returned : Option ReturnData
  invoked : cpi instruction ready = .ok (called, returned)
  unwritten : (called a.executor).data.isEmpty = true
  signalled : s = thread.downgrade a.fiberCursor (parseSignal instruction.programId returned)
  paid : Ledger
  settled : settle a s since (w a.executor).lamports called = .ok paid
  finished : Thread
  finalized : finalize e a paid s ((thread.sync a.fiberCursor).conclude s) = .ok finished
  exited : paid.exitThread a.thread finished = .ok w'

theorem threadExec_fiber {e : Env} {cpi : Cpi} {a : ExecArgs} {w w' : Ledger} {s : Signal}
    (h : threadExec e cpi a w = .ok (w', .fiber s)) : Nonempty (Execution e cpi a w w' s) := by
  simp only [threadExec, bind_eq_ok, require_eq_ok, exists_and_left, exists_const,
    Ledger.loadThread_eq_ok] at h
  obtain ⟨t, hstored, haddr, hactive, hids, -, -, h⟩ := h
  split at h
  · simp at h
  · rename_i hopen
    obtain ⟨⟨u, r⟩, hexec, he⟩ := map_eq_ok.mp h
    simp only [Prod.mk.injEq, Outcome.fiber.injEq] at he
    obtain ⟨rfl, rfl⟩ := he
    simp only [execFiber, bind_eq_ok, require_eq_ok, exists_and_left, exists_const, pure_eq_ok,
      Thread.validateForExecution, Prod.exists, Prod.mk.injEq, Thread.sync_downgrade,
      Thread.sync_fiberIds] at hexec
    obtain ⟨⟨-, hvalid⟩, wn, hn, since, hsince, ix, hix, wc, ret, hcpi, hempty, wp, hp, fin, hfin,
      wx, hexit, rfl, rfl⟩ := hexec
    exact ⟨⟨t, hstored, haddr, hactive, hids, hopen, hvalid, wn, hn, since, hsince, ix, hix, wc,
      ret, hcpi, hempty, rfl, wp, hp, fin, hfin, hexit⟩⟩

/-- The close path leaves the thread as it was, if the callee did not close it. -/
theorem threadExec_closePath {e : Env} {cpi : Cpi} {a : ExecArgs} {w w' : Ledger}
    (h : threadExec e cpi a w = .ok (w', .closePath)) :
    ∃ t ix called returned, w.threadAt a.thread = some t ∧ t.paused = false ∧ t.fiberIds ≠ [] ∧
      t.fiberSignal = .close ∧ closeInstruction e a.thread t = .ok ix ∧
      cpi ix w = .ok (called, returned) ∧ called.exitThread a.thread t = .ok w' := by
  simp only [threadExec, bind_eq_ok, require_eq_ok, exists_and_left, exists_const,
    Ledger.loadThread_eq_ok] at h
  obtain ⟨t, hstored, -, hactive, hids, -, -, h⟩ := h
  split at h
  · rename_i hclose
    simp only [map_eq_ok, execClose, bind_eq_ok, Prod.exists, Prod.mk.injEq, and_true] at h
    obtain ⟨u, ⟨ix, hix, called, returned, hcpi, hexit⟩, rfl⟩ := h
    exact ⟨t, ix, called, returned, hstored, hactive, hids, hclose, hix, hcpi, hexit⟩
  · simp at h

/-- A nonce is written into an account of the system program, or is there already. -/
theorem advanceNonceIfRequired_eq_ok {e : Env} {a : ExecArgs} {t : Thread} {w w' : Ledger}
    (h : advanceNonceIfRequired e a t w = .ok w') :
    w' = w ∨ ∃ nonce out, w' = w.setData nonce (.bytes out) ∧
      ((w nonce).data = .bytes out ∨ (w nonce).owner = systemProgram) := by
  unfold advanceNonceIfRequired at h
  split at h
  · split at h
    · simp only [advanceNonceAccount, bind_eq_ok] at h
      obtain ⟨out, -, h⟩ := h
      exact Or.inr ⟨_, out, Ledger.writeData_eq_ok h⟩
    · simp at h
  · exact Or.inl (Except.ok.inj h).symm

namespace Execution

variable {e : Env} {cpi : Cpi} {a : ExecArgs} {w w' : Ledger} {s : Signal}
  (x : Execution e cpi a w w' s)

include x

theorem finished_eq : x.finished = { (x.thread.sync a.fiberCursor).conclude s with
    schedule := x.finished.schedule
    execCount := x.thread.execCount + 1
    lastExecutor := a.executor } := by
  have h := x.finalized
  have hcount : ((x.thread.sync a.fiberCursor).conclude s).execCount = x.thread.execCount := by
    rw [Thread.conclude_eq]
    unfold Thread.sync
    split <;> rfl
  simp only [finalize, bind_eq_ok, checkU64_eq_ok, pure_eq_ok] at h
  obtain ⟨u, hu, n, ⟨-, rfl⟩, hfin⟩ := h
  unfold reschedule at hu
  split at hu
  · obtain rfl := Except.ok.inj hu
    rw [← hfin, hcount]
  · obtain ⟨sch, -, rfl⟩ := map_eq_ok.mp hu
    rw [← hfin, ← hcount]

/-- The fields of the thread that no execution writes. -/
theorem finished_frame : x.finished.authority = x.thread.authority ∧
    x.finished.id = x.thread.id ∧ x.finished.bump = x.thread.bump ∧
    x.finished.createdAt = x.thread.createdAt ∧
    x.finished.fiberNextId = x.thread.fiberNextId ∧
    x.finished.nonceAccount = x.thread.nonceAccount ∧
    x.finished.closeFiber = x.thread.closeFiber := by
  rw [x.finished_eq, Thread.conclude_eq]
  unfold Thread.sync
  split <;> exact ⟨rfl, rfl, rfl, rfl, rfl, rfl, rfl⟩

theorem finished_fiberIds : x.finished.fiberIds = x.thread.fiberIds := by
  rw [x.finished_eq]
  simp

theorem finished_fiberCursor :
    x.finished.fiberCursor = (x.thread.sync a.fiberCursor).cursorAfter s := by
  rw [x.finished_eq]
  exact Thread.conclude_fiberCursor _ s

theorem finished_fiberSignal : x.finished.fiberSignal =
    if s = .chain then .chain
    else if s = .close ∨ x.thread.trigger.isImmediate then .close
    else .none := by
  rw [x.finished_eq]
  simpa using Thread.conclude_fiberSignal (x.thread.sync a.fiberCursor) s

theorem finished_trigger : x.finished.trigger = s.newTrigger.getD x.thread.trigger := by
  rw [x.finished_eq]
  simpa using Thread.conclude_trigger (x.thread.sync a.fiberCursor) s

theorem finished_paused : x.finished.paused =
    if x.thread.trigger.isTimestamp ∧ s ≠ .chain ∧ ¬ s.unpauses then true
    else s.newPaused.getD x.thread.paused := by
  rw [x.finished_eq]
  simpa using Thread.conclude_paused (x.thread.sync a.fiberCursor) s

/-- A chain keeps the schedule; its end computes one for the trigger that is then set. -/
theorem finished_schedule :
    (s = .chain ∧ x.finished.schedule = x.thread.schedule) ∨
    (s ≠ .chain ∧ nextSchedule e.toHost x.finished.trigger a.clock
      (accountInfos e x.paid a.remainingAccounts) a.thread = .ok x.finished.schedule) := by
  have h := x.finalized
  have hsync : (x.thread.sync a.fiberCursor).schedule = x.thread.schedule := by
    unfold Thread.sync
    split <;> rfl
  simp only [finalize, bind_eq_ok, pure_eq_ok] at h
  obtain ⟨u, hu, n, -, hfin⟩ := h
  unfold reschedule at hu
  split at hu
  · rename_i hs
    obtain rfl := Except.ok.inj hu
    refine Or.inl ⟨hs, ?_⟩
    rw [← hfin, ← hsync, Thread.conclude_eq]
  · rename_i hs
    obtain ⟨sch, hsch, rfl⟩ := map_eq_ok.mp hu
    refine Or.inr ⟨hs, ?_⟩
    rw [← hfin]
    exact hsch

/-- The fiber account is the one of the index that the executor passed. -/
theorem fiber_eq : a.fiber = e.pubkey a.thread a.fiberCursor := by
  have h := x.fetched
  simp only [fetchInstruction, bind_eq_ok, require_eq_ok, exists_and_left, exists_const] at h
  exact h.1

theorem eq_finished {t' : Thread} (ht' : w'.threadAt a.thread = some t') : t' = x.finished :=
  Ledger.eq_of_threadAt_exitThread x.exited ht'

/-- The nonce update passes by every account of the thread program. -/
theorem ready_of_owner {k : Pubkey} (hk : (w k).owner = threadProgram) : x.ready k = w k := by
  rcases advanceNonceIfRequired_eq_ok x.advanced with hsame | ⟨nonce, out, hready, hdata⟩
  · rw [hsame]
  · rw [hready]
    by_cases hn : k = nonce
    · rcases hdata with hdata | howner
      · rw [← hdata, Ledger.setData_self]
      · rw [← hn, hk] at howner
        exact absurd howner threadProgram_ne_systemProgram
    · exact Ledger.setData_of_ne w hn _

theorem ready_threadAt : x.ready.threadAt a.thread = some x.thread := by
  have hstored := x.stored
  have howner := (Ledger.threadAt_eq_some.mp hstored).1
  unfold Ledger.threadAt at hstored ⊢
  rw [x.ready_of_owner howner]
  exact hstored

theorem paid_owner (k : Pubkey) :
    (x.paid k).owner = (x.called k).owner ∧ (x.paid k).data = (x.called k).data := by
  have h := x.settled
  unfold settle at h
  split at h
  · rw [← Except.ok.inj h]
    exact ⟨rfl, rfl⟩
  · simp only [settlePayments, bind_eq_ok] at h
    obtain ⟨change, -, p, -, u, -, h⟩ := h
    exact (distributePayments_eq_ok h).1 k

end Execution

/-! ## A small world -/

/-- Thread `n` of authority 5 has the id `[n]` and the address `n`. -/
def sampleEnv : Env where
  toHost := ⟨fun _ _ => 0, fun _ => 0, fun _ _ => .ok none⟩
  toEnv := FiberProgram.sampleEnv
  threadAddress authority id bump :=
    match id with
    | [n] => if authority = 5 ∧ bump = 255 then some (BitVec.ofNat 256 n.toNat) else none
    | _ => none
  threadBump _ _ := some 255
  initialNonce _ _ := []
  nextNonce _ _ _ := .error .callee
  threadBytes _ := []

/-- The configuration that `config_init` writes, with admin 4. -/
def sampleConfig : ThreadConfig := ⟨1, 255, 4, false, 1000, 9000, 1000, 5, 295⟩

/-- Thread 1 with fibers `ids`, ready to fire at timestamp 0. -/
def sampleThread (trigger : Trigger) (ids : List UInt8) : Thread where
  version := 1
  bump := 255
  authority := 5
  id := [1]
  createdAt := 0
  trigger := trigger
  schedule := .timed 0 0
  fiberIds := ids
  fiberCursor := 0
  fiberNextId := 2
  fiberSignal := .none
  paused := false
  execCount := 0
  lastExecutor := 0
  nonceAccount := threadProgram
  closeFiber := []

/-- An initialised fiber account of thread 1. -/
def sampleFiber (ix : Instruction) : Account :=
  let data := do
    let compiled ← compileToBytes FiberProgram.insertionOrder ix
    Fiber.write (List.replicate FiberProgram.space 0) (.v1 ⟨1, 1, compiled, 0, 0, 0, []⟩)
  ⟨9416880, fiberProgram, .bytes (data.toOption.getD [])⟩

/-- Thread 1 with the instructions of its fibers 0 and 1, and executor 9. -/
def sampleLedger (t : Thread) (first second : Instruction) : Ledger := fun k =>
  if k = 1 then ⟨1000000000, threadProgram, .thread t⟩
  else if k = 9 then ⟨5000000, systemProgram, .bytes []⟩
  else if k = sampleEnv.pubkey 1 0 then sampleFiber first
  else if k = sampleEnv.pubkey 1 1 then sampleFiber second
  else Account.vacant

/-- Executor 9 executes a fiber of thread 1 at timestamp 100, slot 100 and epoch 1. -/
def sampleArgs (fiberCursor : UInt8) : ExecArgs where
  executor := 9
  thread := 1
  fiber := sampleEnv.pubkey 1 fiberCursor
  config := sampleConfig
  admin := 4
  nonceAccount := none
  recentBlockhashes := none
  remainingAccounts := []
  clock := ⟨100, 1, 100⟩
  forgoCommission := true
  fiberCursor := fiberCursor

end Antegen.ThreadProgram
