import Antegen.ThreadExec
import Antegen.Transition

/-!
# What an execution does to its executor

The executor lends its signature to the callee. After the call only the data of its
account is inspected, and only the execution that ends a chain reimburses what its
own callee took. Both are measured against the effect of the callee alone.
-/
namespace Antegen.ThreadProgram

open Transition

/-- The call that an execution makes, from the ledger it starts in. -/
def callee (e : Env) (cpi : Cpi) (a : ExecArgs) (w : Ledger) :
    Result (Ledger × Option ReturnData) := do
  let t ← w.loadThread a.thread
  let w ← advanceNonceIfRequired e a (t.sync a.fiberCursor) w
  let ix ← fetchInstruction e a w
  cpi ix w

/-- Lamports that the callee moves into the executor's account. -/
def calleeGain (e : Env) (cpi : Cpi) (a : ExecArgs) (w : Ledger) : ℤ :=
  match callee e cpi a w with
  | .ok (called, _) => (called a.executor).lamports - (w a.executor).lamports
  | .error _ => 0

/-- The callee does not reassign the executor's account. -/
def CalleeKeepsOwner (e : Env) (cpi : Cpi) (a : ExecArgs) (w : Ledger) : Prop :=
  ∀ called returned, callee e cpi a w = .ok (called, returned) →
    (called a.executor).owner = (w a.executor).owner

namespace Execution

variable {e : Env} {cpi : Cpi} {a : ExecArgs} {w w' : Ledger} {s : Signal}
  (x : Execution e cpi a w w' s)

include x

theorem callee_eq : callee e cpi a w = .ok (x.called, x.returned) := by
  simp only [callee, bind_eq_ok, Ledger.loadThread_eq_ok]
  exact ⟨x.thread, x.stored, x.ready, x.advanced, x.instruction, x.fetched, x.invoked⟩

theorem calleeGain_eq :
    calleeGain e cpi a w = (x.called a.executor).lamports - (w a.executor).lamports := by
  rw [calleeGain, x.callee_eq]

theorem calleeKeepsOwner_iff :
    CalleeKeepsOwner e cpi a w ↔ (x.called a.executor).owner = (w a.executor).owner := by
  constructor
  · intro h
    exact h _ _ x.callee_eq
  · intro h called returned hc
    have he := Except.ok.inj (x.callee_eq.symm.trans hc)
    have hcalled : x.called = called := congrArg Prod.fst he
    rw [← hcalled]
    exact h

/-- Ownership after the execution is what the callee left. -/
theorem owner_after (k : Pubkey) : (w' k).owner = (x.called k).owner := by
  rw [Ledger.exitThread_owner x.exited, (x.paid_owner k).1]

theorem data_after {k : Pubkey} (hk : k ≠ a.thread) : (w' k).data = (x.called k).data := by
  rw [Ledger.exitThread_of_ne x.exited hk, (x.paid_owner k).2]

end Execution

/-- The executor's account is intact after an execution exactly if the callee left
its owner alone and the executor is not the thread itself. -/
theorem executor_intact_iff {e : Env} {cpi : Cpi} {a : ExecArgs} {w w' : Ledger} {s : Signal}
    (h : threadExec e cpi a w = .ok (w', .fiber s)) :
    ((w' a.executor).data.isEmpty = true ∧ (w' a.executor).owner = (w a.executor).owner) ↔
      (a.executor ≠ a.thread ∧ CalleeKeepsOwner e cpi a w) := by
  obtain ⟨x⟩ := threadExec_fiber h
  rw [x.calleeKeepsOwner_iff, x.owner_after]
  by_cases hne : a.executor = a.thread
  · have hbefore := (Ledger.threadAt_eq_some.mp x.stored).1
    refine ⟨fun hw => ?_, fun hw => absurd hne hw.1⟩
    rw [hne, hbefore, ← x.owner_after] at hw
    rw [Ledger.exitThread_data x.exited hw.2] at hw
    exact absurd hw.1 (by simp [AccountData.isEmpty])
  · rw [x.data_after hne]
    exact ⟨fun hw => ⟨hne, hw.2⟩, fun hw => ⟨x.unwritten, hw.2⟩⟩

/-- The system program as a callee: assign, transfer and allocate. -/
def systemCpi : Cpi := fun ix w =>
  match (Borsh.uint 4).dec ix.data, ix.accounts with
  | some (1, rest), [account] => do
    require (ix.programId = systemProgram ∧ account.isSigner) .callee
    let owner ← ofOption .invalidInstructionData (pubkeyCodec.fromSlice rest)
    (w.assign account.pubkey owner).map (·, none)
  | some (2, rest), [source, target] => do
    require (ix.programId = systemProgram ∧ source.isSigner) .callee
    let lamports ← ofOption .invalidInstructionData ((Borsh.uint 8).fromSlice rest)
    (w.transfer source.pubkey target.pubkey lamports).map (·, none)
  | some (8, rest), [account] => do
    require (ix.programId = systemProgram ∧ account.isSigner) .callee
    let space ← ofOption .invalidInstructionData ((Borsh.uint 8).fromSlice rest)
    (w.allocate account.pubkey space).map (·, none)
  | _, _ => .error .invalidInstructionData

/-- `assign` of the account that executes it, to program 8. -/
def assignExecutor : Instruction :=
  ⟨systemProgram, [⟨payerPubkey, true, true⟩], [1, 0, 0, 0, 8] ++ List.replicate 31 0⟩

/-- `transfer` of a lamport from the account that executes it, to account 3. -/
def tipFromExecutor : Instruction :=
  ⟨systemProgram, [⟨payerPubkey, true, true⟩, ⟨3, false, true⟩],
    [2, 0, 0, 0, 1, 0, 0, 0, 0, 0, 0, 0]⟩

def sampleInterval : Thread := sampleThread (.interval 10 false 0) [0, 1]

set_option maxRecDepth 20000 in
/-- A fiber that assigns its executor's account to another program goes through. -/
theorem executor_assigned_away :
    ∃ w', threadExec sampleEnv systemCpi (sampleArgs 0)
        (sampleLedger sampleInterval assignExecutor tipFromExecutor) = .ok (w', .fiber .none) ∧
      ¬ ((w' 9).data.isEmpty = true ∧
        (w' 9).owner = (sampleLedger sampleInterval assignExecutor tipFromExecutor 9).owner) := by
  have hrun : (threadExec sampleEnv systemCpi (sampleArgs 0)
      (sampleLedger sampleInterval assignExecutor tipFromExecutor)).map
        (fun r => (r.2, (r.1 9).owner)) = .ok (.fiber .none, 8) := by
    decide +kernel
  obtain ⟨⟨w', o⟩, hexec, ho⟩ := map_eq_ok.mp hrun
  obtain ⟨rfl, howner⟩ := Prod.mk.inj ho
  refine ⟨w', hexec, fun hw => ?_⟩
  rw [show (w' 9).owner = 8 from howner] at hw
  exact absurd hw.2 (by decide)

set_option maxRecDepth 20000 in
theorem executor_intact_after_tip :
    ∃ w', threadExec sampleEnv systemCpi (sampleArgs 0)
        (sampleLedger sampleInterval tipFromExecutor assignExecutor) = .ok (w', .fiber .none) ∧
      (w' 9).data.isEmpty = true ∧ (w' 9).owner = systemProgram := by
  have hrun : (threadExec sampleEnv systemCpi (sampleArgs 0)
      (sampleLedger sampleInterval tipFromExecutor assignExecutor)).map
        (fun r => (r.2, (r.1 9).owner)) = .ok (.fiber .none, systemProgram) := by
    decide +kernel
  obtain ⟨⟨w', o⟩, hexec, ho⟩ := map_eq_ok.mp hrun
  obtain ⟨rfl, howner⟩ := Prod.mk.inj ho
  have hkeeps : CalleeKeepsOwner sampleEnv systemCpi (sampleArgs 0)
      (sampleLedger sampleInterval tipFromExecutor assignExecutor) := by
    obtain ⟨x⟩ := threadExec_fiber hexec
    rw [x.calleeKeepsOwner_iff, ← x.owner_after]
    exact howner
  obtain ⟨hdata, -⟩ := (executor_intact_iff hexec).mpr ⟨by decide, hkeeps⟩
  exact ⟨w', hexec, hdata, howner⟩

/-! ## Balances along a chain -/

namespace Execution

variable {e : Env} {cpi : Cpi} {a : ExecArgs} {w w' : Ledger}

/-- Nothing is paid on an execution that continues its chain. -/
theorem link_lamports (x : Execution e cpi a w w' .chain) :
    ((w' a.executor).lamports : ℤ) = (w a.executor).lamports + calleeGain e cpi a w := by
  have hpaid : x.called = x.paid := Except.ok.inj x.settled
  rw [Ledger.exitThread_lamports x.exited a.executor, ← hpaid, x.calleeGain_eq]
  omega

/-- The execution that ends a chain makes up for what its own callee took. -/
theorem last_lamports {s : Signal} (x : Execution e cpi a w w' s) (hs : s ≠ .chain)
    (hne : a.executor ≠ a.thread) (hgain : -2 ^ 63 ≤ calleeGain e cpi a w) :
    (w a.executor).lamports ≤ (w' a.executor).lamports ∧
      (calleeGain e cpi a w < 0 → a.forgoCommission = true → a.executor ≠ a.admin →
        (w' a.executor).lamports = (w a.executor).lamports) := by
  have hsettled := x.settled
  rw [settle, if_neg hs] at hsettled
  simp only [settlePayments, bind_eq_ok, checkI64_eq_ok] at hsettled
  obtain ⟨change, ⟨⟨hlow, hhigh⟩, hchange⟩, p, hp, -, -, hdist⟩ := hsettled
  have hfinal := (distributePayments_eq_ok hdist).2 hne
  rw [← Ledger.exitThread_lamports x.exited a.executor] at hfinal
  obtain ⟨hloss, -⟩ := calculatePayments_reimbursement hp
  rw [x.calleeGain_eq] at hgain ⊢
  have hexact : ((x.called a.executor).lamports : ℤ) - (w a.executor).lamports < 0 →
      change = (x.called a.executor).lamports - (w a.executor).lamports := by
    intro hneg
    unfold asI64 at hchange hlow hhigh
    split_ifs at hchange hlow hhigh <;> omega
  constructor
  · by_cases hneg : ((x.called a.executor).lamports : ℤ) - (w a.executor).lamports < 0
    · have hr := hloss (by rw [hexact hneg]; exact hneg)
      rw [hexact hneg] at hr
      omega
    · omega
  · intro hneg hforgo hadmin
    have hr := hloss (by rw [hexact hneg]; exact hneg)
    rw [hexact hneg] at hr
    rw [hforgo] at hp
    rw [calculatePayments_forgo hp, if_neg hadmin] at hfinal
    omega

end Execution

/-- A step of a chain: an execution, labelled with what its callee moves into the
executor's account, or anything that leaves the executor's balance alone. -/
inductive ChainEvent
  | link (cpi : Cpi) (a : ExecArgs) (gain : ℤ)
  | other

def ChainEvent.gain : ChainEvent → ℤ
  | link _ _ gain => gain
  | other => 0

def ChainStep (e : Env) (executor thread : Pubkey) (w : Ledger) : ChainEvent → Ledger → Prop
  | .link cpi a gain, w' => a.executor = executor ∧ a.thread = thread ∧
      gain = calleeGain e cpi a w ∧ threadExec e cpi a w = .ok (w', .fiber .chain)
  | .other, w' => (w' executor).lamports = (w executor).lamports

/-- Net effect of the callees of a chain's links on the executor. -/
def netGain (events : List ChainEvent) : ℤ := (events.map ChainEvent.gain).sum

/-- Over the links of a chain the executor keeps exactly what the callees left it. -/
theorem links_lamports {e : Env} {executor thread : Pubkey} {w w' : Ledger}
    {events : List ChainEvent} (h : Run (ChainStep e executor thread) w events w') :
    ((w' executor).lamports : ℤ) = (w executor).lamports + netGain events := by
  induction h with
  | nil s => simp [netGain]
  | @cons u v t ev events hstep _ ih =>
    have hnet : netGain (ev :: events) = ev.gain + netGain events := by
      simp [netGain]
    have hone : ((v executor).lamports : ℤ) = (u executor).lamports + ev.gain := by
      cases ev with
      | other =>
        have hkeep : (v executor).lamports = (u executor).lamports := hstep
        simp [ChainEvent.gain, hkeep]
      | link cpi a gain =>
        obtain ⟨hex, -, hgain, hexec⟩ := hstep
        obtain ⟨x⟩ := threadExec_fiber hexec
        have hx := x.link_lamports
        rw [hex, ← hgain] at hx
        exact hx
    rw [ih, hone, hnet]
    omega

/-- The executor is whole after a chain if the callees of the links before the last
execution took nothing on balance. When the last callee takes lamports and no
commission is due, this is also necessary. -/
theorem chain_whole_iff {e : Env} {executor thread : Pubkey} (hne : executor ≠ thread)
    {w₀ w w' : Ledger} {events : List ChainEvent}
    (hlinks : Run (ChainStep e executor thread) w₀ events w) {cpi : Cpi} {a : ExecArgs}
    (hex : a.executor = executor) (hthread : a.thread = thread) {s : Signal} (hs : s ≠ .chain)
    (hlast : threadExec e cpi a w = .ok (w', .fiber s))
    (hgain : -2 ^ 63 ≤ calleeGain e cpi a w) :
    (0 ≤ netGain events → (w₀ executor).lamports ≤ (w' executor).lamports) ∧
      (calleeGain e cpi a w < 0 → a.forgoCommission = true → executor ≠ a.admin →
        ((w₀ executor).lamports ≤ (w' executor).lamports ↔ 0 ≤ netGain events)) := by
  subst hex hthread
  obtain ⟨x⟩ := threadExec_fiber hlast
  obtain ⟨hwhole, hexact⟩ := x.last_lamports hs hne hgain
  have hnet := links_lamports hlinks
  constructor
  · intro hpos
    omega
  · intro hneg hforgo hadmin
    have heq := hexact hneg hforgo hadmin
    omega

/-- A program that takes lamports from its first account and may signal a chain. -/
def tollCpi : Cpi := fun ix w =>
  match ix.accounts, ix.data with
  | [source, target], [n, signal] => do
    require source.isSigner .callee
    let w ← w.transfer source.pubkey target.pubkey (n.toNat * 10000)
    pure (w, some ⟨ix.programId, some (if signal = 1 then .chain else .none)⟩)
  | _, _ => .error .callee

/-- Program 8 takes `n * 10000` lamports from the executor. -/
def toll (n signal : UInt8) : Instruction :=
  ⟨8, [⟨payerPubkey, true, true⟩, ⟨3, false, true⟩], [n, signal]⟩

/-- Fiber 0 takes a toll and chains, fiber 1 takes another one. -/
def tollLedger (first second : UInt8) : Ledger :=
  sampleLedger sampleInterval (toll first 1) (toll second 0)

/-- Both executions of a chain, with the executor's balance at its end. -/
def tollChain (first second : UInt8) : Result (Outcome × Outcome × ℕ) := do
  let (w, o) ← threadExec sampleEnv tollCpi (sampleArgs 0) (tollLedger first second)
  let (w, o') ← threadExec sampleEnv tollCpi (sampleArgs 1) w
  pure (o, o', (w 9).lamports)

theorem tollChain_eq_ok {first second : UInt8} {o o' : Outcome} {n : ℕ}
    (h : tollChain first second = .ok (o, o', n)) :
    ∃ w w', threadExec sampleEnv tollCpi (sampleArgs 0) (tollLedger first second) = .ok (w, o) ∧
      threadExec sampleEnv tollCpi (sampleArgs 1) w = .ok (w', o') ∧ (w' 9).lamports = n := by
  simp only [tollChain, bind_eq_ok, pure_eq_ok, Prod.exists, Prod.mk.injEq] at h
  obtain ⟨w, o₁, h₁, w', o₂, h₂, rfl, rfl, hn⟩ := h
  exact ⟨w, w', h₁, h₂, hn⟩

set_option maxRecDepth 20000 in
/-- A toll of a million lamports in the first link is never reimbursed. -/
theorem chain_link_loss_not_reimbursed :
    ∃ w w', threadExec sampleEnv tollCpi (sampleArgs 0) (tollLedger 100 0) =
        .ok (w, .fiber .chain) ∧
      threadExec sampleEnv tollCpi (sampleArgs 1) w = .ok (w', .fiber .none) ∧
      (w' 9).lamports < (tollLedger 100 0 9).lamports := by
  have hrun : tollChain 100 0 = .ok (.fiber .chain, .fiber .none, 4005000) := by decide +kernel
  obtain ⟨w, w', h₁, h₂, hn⟩ := tollChain_eq_ok hrun
  refine ⟨w, w', h₁, h₂, ?_⟩
  rw [hn]
  decide

set_option maxRecDepth 20000 in
theorem chain_whole_when_last_takes :
    ∃ w w', threadExec sampleEnv tollCpi (sampleArgs 0) (tollLedger 0 100) =
        .ok (w, .fiber .chain) ∧
      threadExec sampleEnv tollCpi (sampleArgs 1) w = .ok (w', .fiber .none) ∧
      (tollLedger 0 100 9).lamports ≤ (w' 9).lamports := by
  have hrun : tollChain 0 100 = .ok (.fiber .chain, .fiber .none, 5000000) := by decide +kernel
  obtain ⟨w, w', h₁, h₂, hn⟩ := tollChain_eq_ok hrun
  have hgain : calleeGain sampleEnv tollCpi (sampleArgs 0) (tollLedger 0 100) = 0 := by
    decide +kernel
  have hgain' : ((threadExec sampleEnv tollCpi (sampleArgs 0) (tollLedger 0 100)).map
      fun r => calleeGain sampleEnv tollCpi (sampleArgs 1) r.1) = .ok (-1000000) := by
    decide +kernel
  rw [h₁] at hgain'
  have hlast : calleeGain sampleEnv tollCpi (sampleArgs 1) w = -1000000 := Except.ok.inj hgain'
  have hlinks : Run (ChainStep sampleEnv 9 1) (tollLedger 0 100)
      [.link tollCpi (sampleArgs 0) 0] w :=
    .cons ⟨rfl, rfl, hgain.symm, h₁⟩ (.nil w)
  have hwhole := chain_whole_iff (by decide) hlinks rfl rfl (by decide) h₂ (by rw [hlast]; decide)
  exact ⟨w, w', h₁, h₂, hwhole.1 (by decide)⟩

end Antegen.ThreadProgram
