import Antegen.FeeConfig

/-!
# Payments that overflow

The commission is multiplied by a number of basis points before it is divided, and the
product is checked. An update bounds every number of the configuration but the commission
itself, so the products need not fit. Once they do, everything else fits: a reimbursement is
less than half of the range and a commission less than a part in ten thousand.
-/
namespace Antegen

open Transition

namespace ThreadConfig

/-- The commission that is left after a delay, in whole lamports and within its type. -/
def commissionAt (c : ThreadConfig) (f : Rounding) (timeSinceReady : ℤ) : ℕ :=
  min (2 ^ 64 - 1) ⌊f.round (f.round c.commissionFee * c.decayed f timeSinceReady)⌋.toNat

/-- The payments are computed, and can be distributed, without a panic. -/
def Payable (c : ThreadConfig) (f : Rounding) (timeSinceReady balanceChange : ℤ)
    (forgoCommission : Bool) : Prop :=
  ∃ p, c.calculatePayments f timeSinceReady balanceChange forgoCommission = .ok p ∧
    ∀ w thread executor admin, distributePayments w thread executor admin p ≠ .error .panic

/-- The product of each share that is computed fits. -/
structure Moderate (c : ThreadConfig) (f : Rounding) (timeSinceReady balanceChange : ℤ)
    (forgoCommission : Bool) : Prop where
  team : c.commissionAt f timeSinceReady * c.coreTeamBps < 2 ^ 64
  executor : balanceChange ≤ 0 → forgoCommission = false →
    c.commissionAt f timeSinceReady * c.executorFeeBps < 2 ^ 64

theorem Valid.effective_eq {c : ThreadConfig} (h : c.Valid) (f : Rounding) (t : ℤ) :
    c.calculateEffectiveCommission f t = .ok (c.commissionAt f t) := by
  unfold calculateEffectiveCommission commissionAt
  rw [h.multiplier_eq f t]
  rfl

/-- A share of the commission is computed exactly if its product fits. -/
theorem calculateFee_eq_ok_iff {bps effective : ℕ} :
    (∃ fee, calculateFee bps effective = .ok fee) ↔ effective * bps < 2 ^ 64 := by
  simp [calculateFee, map_eq_ok]

theorem calculateFee_le {bps effective fee : ℕ} (h : calculateFee bps effective = .ok fee) :
    fee ≤ 2 ^ 64 / 10000 := by
  simp only [calculateFee, map_eq_ok, checkU64_eq_ok] at h
  obtain ⟨product, ⟨hfits, rfl⟩, rfl⟩ := h
  exact Nat.div_le_div_right hfits.le

theorem calculateReimbursement_lt {change : ℤ} (h : change.natAbs < 2 ^ 63) :
    calculateReimbursement change < 2 ^ 63 := by
  unfold calculateReimbursement
  split_ifs
  · exact h
  · norm_num
  · norm_num

/-- The executor's part is computed exactly if its product fits or is not needed. -/
theorem executorShare_eq_ok_iff {c : ThreadConfig} {effective : ℕ} {change : ℤ} {forgo : Bool} :
    (∃ share, c.executorShare effective change forgo = .ok share) ↔
      (change ≤ 0 → forgo = false → effective * c.executorFeeBps < 2 ^ 64) := by
  unfold executorShare shouldPay
  by_cases hpay : change ≤ 0
  · simp only [hpay, decide_true, if_true, true_implies]
    cases forgo with
    | true => simp
    | false =>
      simp only [Bool.false_eq_true, if_false, true_implies, map_eq_ok]
      rw [← calculateFee_eq_ok_iff]
      constructor
      · rintro ⟨share, fee, hfee, -⟩
        exact ⟨fee, hfee⟩
      · rintro ⟨fee, hfee⟩
        exact ⟨_, fee, hfee, rfl⟩
  · simp [hpay]

/-- The executor's part fits its type once it is computed. -/
theorem executorShare_lt {c : ThreadConfig} {effective reimbursement commission : ℕ}
    {change : ℤ} {forgo : Bool} (hchange : change.natAbs < 2 ^ 63)
    (h : c.executorShare effective change forgo = .ok (reimbursement, commission)) :
    reimbursement + commission < 2 ^ 64 := by
  have hreimbursement := calculateReimbursement_lt hchange
  unfold executorShare at h
  split_ifs at h with hpay hforgo
  · obtain ⟨rfl, rfl⟩ := Prod.mk.inj (Except.ok.inj h)
    omega
  · obtain ⟨fee, hfee, heq⟩ := map_eq_ok.mp h
    obtain ⟨rfl, rfl⟩ := Prod.mk.inj heq
    have hcommission := calculateFee_le hfee
    omega
  · obtain ⟨rfl, rfl⟩ := Prod.mk.inj (Except.ok.inj h)
    norm_num

end ThreadConfig

/-- A transfer uses checked operators. -/
theorem transferLamports_ne_panic (w : Ledger) (source target : Pubkey) (amount : ℕ) :
    transferLamports w source target amount ≠ .error .panic := by
  unfold transferLamports Ledger.writeLamports require
  split_ifs <;> simp [bind, Except.bind] <;> split_ifs <;> simp

theorem distributePayments_ne_panic {p : PaymentDetails}
    (h : p.feePayerReimbursement + p.executorCommission < 2 ^ 64) (w : Ledger)
    (thread executor admin : Pubkey) :
    distributePayments w thread executor admin p ≠ .error .panic := by
  have hsum : checkU64 (p.feePayerReimbursement + p.executorCommission) =
      .ok (p.feePayerReimbursement + p.executorCommission) := checkU64_eq_ok.mpr ⟨h, rfl⟩
  have hfirst := transferLamports_ne_panic w thread executor
    (p.feePayerReimbursement + p.executorCommission)
  unfold distributePayments
  rw [hsum]
  simp only [bind, Except.bind]
  cases hpaid : transferLamports w thread executor
      (p.feePayerReimbursement + p.executorCommission) with
  | error err =>
    rw [hpaid] at hfirst
    exact hfirst
  | ok w' => exact transferLamports_ne_panic w' thread admin p.coreTeamFee

namespace ThreadConfig

/-- Payments are made without a panic exactly if the products of the shares fit. -/
theorem Valid.payable_iff {c : ThreadConfig} (h : c.Valid) (f : Rounding) {since change : ℤ}
    {forgo : Bool} (hchange : change.natAbs < 2 ^ 63) :
    c.Payable f since change forgo ↔ c.Moderate f since change forgo := by
  constructor
  · rintro ⟨p, hp, -⟩
    simp only [calculatePayments, h.effective_eq, bind_eq_ok, Except.ok.injEq, exists_eq_left',
      pure_eq_ok] at hp
    obtain ⟨⟨reimbursement, commission⟩, hshare, fee, hfee, -⟩ := hp
    exact ⟨calculateFee_eq_ok_iff.mp ⟨fee, hfee⟩, executorShare_eq_ok_iff.mp ⟨_, hshare⟩⟩
  · intro hmoderate
    obtain ⟨⟨reimbursement, commission⟩, hshare⟩ :=
      executorShare_eq_ok_iff.mpr hmoderate.executor
    obtain ⟨fee, hfee⟩ := calculateFee_eq_ok_iff.mpr hmoderate.team
    refine ⟨⟨reimbursement, commission, fee⟩, ?_,
      distributePayments_ne_panic (executorShare_lt hchange hshare)⟩
    simp only [calculatePayments, h.effective_eq, bind_eq_ok, Except.ok.injEq, exists_eq_left',
      pure_eq_ok]
    exact ⟨_, hshare, fee, hfee, rfl⟩

/-- Under every configuration that updates lead to, at every time and for all balances, the
payments overflow exactly if the product of a share that is computed does, for exact operations
and for those of the program. -/
theorem payments_fit_iff {bump : UInt8} {admin : Pubkey}
    {updates : List (Pubkey × ConfigUpdateParams)} {c : ThreadConfig}
    (h : Run Updates (configInit bump admin) updates c) (f : Rounding) (timeSinceReady : ℤ)
    {start after : ℕ} (hstart : start < 2 ^ 63) (hafter : after < 2 ^ 63) (forgo : Bool) :
    c.Payable f timeSinceReady (after - start) forgo ↔
      c.Moderate f timeSinceReady (after - start) forgo :=
  (valid_of_updates h).payable_iff f (by omega)

/-- A commission of 2⁶² lamports. -/
def hugeCommission : ConfigUpdateParams := ⟨none, none, some (2 ^ 62), none, none, none, none⟩

/-- The update is admitted, and no execution in the grace period can be paid. -/
theorem huge_commission_panics :
    ∃ c, Run Updates (configInit 255 4) [(4, hugeCommission)] c ∧
      c.calculatePayments .exact 0 0 false = .error .panic ∧
      c.calculatePayments .exact 5 100 true = .error .panic ∧
      c.calculatePayments .binary64 0 0 false = .error .panic ∧
      c.calculatePayments .binary64 5 100 true = .error .panic := by
  have hupdate : (configInit 255 4).configUpdate 4 hugeCommission =
      .ok ⟨1, 255, 4, false, 2 ^ 62, 9000, 1000, 5, 295⟩ := by
    decide
  refine ⟨_, .cons hupdate (.nil _), ?_, ?_, ?_, ?_⟩
  · decide +kernel
  · decide +kernel
  · decide +kernel
  · decide +kernel

/-- A commission of 295000 lamports, which the executor and the team share equally. -/
def equalShares : ConfigUpdateParams :=
  ⟨none, none, some 295000, some 5000, some 5000, none, none⟩

theorem payments_fit_after_update :
    ∃ c, Run Updates (configInit 255 4) [(4, equalShares)] c ∧
      c.Payable .exact 58 (((4000 : ℕ) : ℤ) - (5000 : ℕ)) false := by
  have hupdate : (configInit 255 4).configUpdate 4 equalShares =
      .ok ⟨1, 255, 4, false, 295000, 5000, 5000, 5, 295⟩ := by
    decide
  have hrun : Run Updates (configInit 255 4) [(4, equalShares)]
      ⟨1, 255, 4, false, 295000, 5000, 5000, 5, 295⟩ := .cons hupdate (.nil _)
  refine ⟨_, hrun,
    (payments_fit_iff hrun .exact 58 (by decide) (by decide) false).mpr ⟨?_, ?_⟩⟩
  · decide +kernel
  · decide +kernel

end ThreadConfig

end Antegen
