import Antegen.Ledger
import Antegen.Rounding

/-!
# Commission, reimbursement and their payment

The decaying commission is computed in floating-point numbers. Each of their operations
rounds its result, the program to double precision; with no rounding the commission is the
exact rational one. All other quantities are machine integers with overflow checks. A payment
debits the thread first, so an account that is credited and debited at once is read in between.
-/
namespace Antegen

/-- The global configuration account. -/
structure ThreadConfig where
  version : ℕ
  bump : UInt8
  admin : Pubkey
  paused : Bool
  commissionFee : ℕ
  executorFeeBps : ℕ
  coreTeamBps : ℕ
  gracePeriodSeconds : ℤ
  feeDecaySeconds : ℤ
  deriving DecidableEq, Repr

structure PaymentDetails where
  feePayerReimbursement : ℕ
  executorCommission : ℕ
  coreTeamFee : ℕ
  deriving DecidableEq, Repr

/-- Pay if the balance decreased or stayed the same. -/
def shouldPay (balanceChange : ℤ) : Bool := balanceChange ≤ 0

def calculateReimbursement (balanceChange : ℤ) : ℕ :=
  if balanceChange < 0 then balanceChange.natAbs
  else if 0 < balanceChange then 0
  else 5000

namespace ThreadConfig

/-- Full commission in the grace period, then a linear decay to nothing. -/
def calculateCommissionMultiplier (c : ThreadConfig) (f : Rounding) (timeSinceReady : ℤ) :
    Result ℚ :=
  if timeSinceReady ≤ c.gracePeriodSeconds then .ok 1
  else do
    let horizon ← checkI64 (c.gracePeriodSeconds + c.feeDecaySeconds)
    if timeSinceReady ≤ horizon then do
      let timeIntoDecay ← checkI64 (timeSinceReady - c.gracePeriodSeconds)
      let decayProgress := f.round (f.round timeIntoDecay / f.round c.feeDecaySeconds)
      pure (f.round (1 - decayProgress))
    else pure 0

/-- The cast `as u64` truncates and saturates. -/
def calculateEffectiveCommission (c : ThreadConfig) (f : Rounding) (timeSinceReady : ℤ) :
    Result ℕ := do
  let multiplier ← c.calculateCommissionMultiplier f timeSinceReady
  pure (min (2 ^ 64 - 1) ⌊f.round (f.round c.commissionFee * multiplier)⌋.toNat)

/-- A share of the effective commission, in basis points. -/
def calculateFee (bps effectiveCommission : ℕ) : Result ℕ :=
  (checkU64 (effectiveCommission * bps)).map (· / 10000)

def calculateExecutorFee (c : ThreadConfig) (effectiveCommission : ℕ) : Result ℕ :=
  calculateFee c.executorFeeBps effectiveCommission

def calculateCoreTeamFee (c : ThreadConfig) (effectiveCommission : ℕ) : Result ℕ :=
  calculateFee c.coreTeamBps effectiveCommission

/-- The executor's reimbursement and commission. -/
def executorShare (c : ThreadConfig) (effectiveCommission : ℕ) (balanceChange : ℤ)
    (forgoCommission : Bool) : Result (ℕ × ℕ) :=
  if shouldPay balanceChange then
    if forgoCommission then .ok (calculateReimbursement balanceChange, 0)
    else (c.calculateExecutorFee effectiveCommission).map fun commission =>
      (calculateReimbursement balanceChange, commission)
  else .ok (0, 0)

def calculatePayments (c : ThreadConfig) (f : Rounding) (timeSinceReady balanceChange : ℤ)
    (forgoCommission : Bool) : Result PaymentDetails := do
  let effective ← c.calculateEffectiveCommission f timeSinceReady
  let (reimbursement, commission) ← c.executorShare effective balanceChange forgoCommission
  let coreTeamFee ← c.calculateCoreTeamFee effective
  pure ⟨reimbursement, commission, coreTeamFee⟩

/-- The commission that the log reports as forgone is computed as well, and its
computation can fail. -/
def forgoneCommission (c : ThreadConfig) (f : Rounding) (timeSinceReady : ℤ)
    (forgoCommission : Bool) (p : PaymentDetails) : Result Unit :=
  if forgoCommission ∧ p.executorCommission = 0 then do
    let effective ← c.calculateEffectiveCommission f timeSinceReady
    let _ ← c.calculateExecutorFee effective
    pure ()
  else pure ()

end ThreadConfig

/-- `transfer_lamports`, as the thread program runs it. -/
def transferLamports (w : Ledger) (source target : Pubkey) (amount : ℕ) : Result Ledger :=
  if amount = 0 then .ok w
  else do
    require (amount ≤ (w source).lamports) .insufficientFunds
    let w ← w.writeLamports threadProgram source ((w source).lamports - amount)
    require ((w target).lamports + amount < 2 ^ 64) .arithmeticOverflow
    w.writeLamports threadProgram target ((w target).lamports + amount)

/-- `distribute_payments`: first the executor, then the core team. -/
def distributePayments (w : Ledger) (thread executor admin : Pubkey) (p : PaymentDetails) :
    Result Ledger := do
  let total ← checkU64 (p.feePayerReimbursement + p.executorCommission)
  let w ← transferLamports w thread executor total
  transferLamports w thread admin p.coreTeamFee

/-! ## What the executor receives -/

theorem executorShare_reimbursement {c : ThreadConfig} {effective reimbursement commission : ℕ}
    {change : ℤ} {forgo : Bool}
    (h : c.executorShare effective change forgo = .ok (reimbursement, commission)) :
    reimbursement = if change ≤ 0 then calculateReimbursement change else 0 := by
  unfold ThreadConfig.executorShare shouldPay at h
  by_cases hc : change ≤ 0
  · rw [if_pos hc]
    simp only [hc, decide_true, if_true] at h
    split at h
    · exact (congrArg Prod.fst (Except.ok.inj h)).symm
    · obtain ⟨m, -, hm⟩ := map_eq_ok.mp h
      exact (congrArg Prod.fst hm).symm
  · rw [if_neg hc]
    simp only [hc, decide_false, Bool.false_eq_true, if_false] at h
    exact (congrArg Prod.fst (Except.ok.inj h)).symm

/-- The reimbursement covers a loss exactly, and is nothing after a gain. -/
theorem calculatePayments_reimbursement {c : ThreadConfig} {f : Rounding} {since change : ℤ}
    {forgo : Bool} {p : PaymentDetails} (h : c.calculatePayments f since change forgo = .ok p) :
    (change < 0 → (p.feePayerReimbursement : ℤ) = -change) ∧
      (0 < change → p.feePayerReimbursement = 0) := by
  simp only [ThreadConfig.calculatePayments, bind_eq_ok, pure_eq_ok] at h
  obtain ⟨effective, -, ⟨reimbursement, commission⟩, hshare, core, -, rfl⟩ := h
  have hr := executorShare_reimbursement hshare
  constructor
  · intro hneg
    rw [if_pos (by omega), calculateReimbursement, if_pos hneg] at hr
    show (reimbursement : ℤ) = -change
    omega
  · intro hpos
    rw [if_neg (by omega)] at hr
    exact hr

/-- A waived commission is not paid. -/
theorem calculatePayments_forgo {c : ThreadConfig} {f : Rounding} {since change : ℤ}
    {p : PaymentDetails} (h : c.calculatePayments f since change true = .ok p) :
    p.executorCommission = 0 := by
  simp only [ThreadConfig.calculatePayments, bind_eq_ok, pure_eq_ok] at h
  obtain ⟨effective, -, ⟨reimbursement, commission⟩, hshare, core, -, rfl⟩ := h
  simp only [ThreadConfig.executorShare, if_true] at hshare
  split at hshare
  · exact (congrArg Prod.snd (Except.ok.inj hshare)).symm
  · exact (congrArg Prod.snd (Except.ok.inj hshare)).symm

/-- A transfer moves lamports and nothing else. -/
theorem transferLamports_eq_ok {w w' : Ledger} {source target : Pubkey} {amount : ℕ}
    (h : transferLamports w source target amount = .ok w') :
    (∀ k, (w' k).owner = (w k).owner ∧ (w' k).data = (w k).data) ∧
      (∀ k, k ≠ source → (w' k).lamports = (w k).lamports + if k = target then amount else 0) := by
  unfold transferLamports at h
  split at h
  · rename_i h0
    obtain rfl := Except.ok.inj h
    exact ⟨fun k => ⟨rfl, rfl⟩, fun k _ => by simp [h0]⟩
  · simp only [bind_eq_ok, require_eq_ok, exists_and_left, exists_const] at h
    obtain ⟨-, w1, h1, -, h2⟩ := h
    obtain ⟨rfl, -⟩ := Ledger.writeLamports_eq_ok h1
    obtain ⟨rfl, -⟩ := Ledger.writeLamports_eq_ok h2
    refine ⟨fun k => by simp, fun k hk => ?_⟩
    by_cases ht : k = target
    · subst ht
      simp [hk]
    · simp [hk, ht]

theorem distributePayments_eq_ok {w w' : Ledger} {thread executor admin : Pubkey}
    {p : PaymentDetails} (h : distributePayments w thread executor admin p = .ok w') :
    (∀ k, (w' k).owner = (w k).owner ∧ (w' k).data = (w k).data) ∧
      (executor ≠ thread → (w' executor).lamports = (w executor).lamports +
        (p.feePayerReimbursement + p.executorCommission) +
          if executor = admin then p.coreTeamFee else 0) := by
  simp only [distributePayments, bind_eq_ok, checkU64_eq_ok] at h
  obtain ⟨total, ⟨-, rfl⟩, w1, h1, h2⟩ := h
  obtain ⟨hkeep1, hmove1⟩ := transferLamports_eq_ok h1
  obtain ⟨hkeep2, hmove2⟩ := transferLamports_eq_ok h2
  constructor
  · intro k
    rw [(hkeep2 k).1, (hkeep2 k).2, (hkeep1 k).1, (hkeep1 k).2]
    exact ⟨rfl, rfl⟩
  · intro hne
    rw [hmove2 executor hne, hmove1 executor hne, if_pos rfl]

end Antegen
