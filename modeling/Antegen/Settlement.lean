import Antegen.ThreadExec

/-!
# The payments of an execution

The payment step compares the executor's balance with the one at the start of the
execution, both cast to signed integers, and makes two transfers from the thread. The
three accounts may coincide, except that the executor is not the thread. The cast wraps at
half of the range: a gain of more than that looks like a loss and its reimbursement
overflows, a loss of more than that looks like a gain and is not reimbursed.
-/
namespace Antegen

/-- A transfer between any two accounts, also from an account to itself. -/
theorem transferLamports_lamports {w w' : Ledger} {source target : Pubkey} {amount : ℕ}
    (h : transferLamports w source target amount = .ok w') (k : Pubkey) :
    ((w' k).lamports : ℤ) = (w k).lamports + (if k = target then amount else 0) -
      (if k = source then amount else 0) := by
  unfold transferLamports at h
  split at h
  · rename_i h0
    obtain rfl := Except.ok.inj h
    simp [h0]
  · simp only [bind_eq_ok, require_eq_ok, exists_and_left, exists_const] at h
    obtain ⟨hfunds, w1, h1, -, h2⟩ := h
    obtain ⟨rfl, -⟩ := Ledger.writeLamports_eq_ok h1
    obtain ⟨rfl, -⟩ := Ledger.writeLamports_eq_ok h2
    simp only [Ledger.setLamports_lamports]
    -- the source is debited before the target is read
    by_cases ht : k = target
    · by_cases hs : k = source
      · subst ht hs
        simp only [if_true]
        omega
      · subst ht
        simp only [if_true, if_neg hs]
        omega
    · by_cases hs : k = source
      · subst hs
        simp only [if_true, if_neg ht]
        omega
      · simp only [if_neg ht, if_neg hs]
        omega

/-- The credited balance fits its type. -/
theorem transferLamports_lt {w w' : Ledger} {source target : Pubkey} {amount : ℕ}
    (h : transferLamports w source target amount = .ok w')
    (hw : (w target).lamports < 2 ^ 64) : (w' target).lamports < 2 ^ 64 := by
  unfold transferLamports at h
  split at h
  · rw [← Except.ok.inj h]
    exact hw
  · simp only [bind_eq_ok, require_eq_ok, exists_and_left, exists_const] at h
    obtain ⟨-, w1, -, hfits, h2⟩ := h
    obtain ⟨rfl, -⟩ := Ledger.writeLamports_eq_ok h2
    simpa using hfits

/-- Lamports of an account after both payments. -/
def balanceAfter (w : Ledger) (thread executor admin : Pubkey) (toExecutor toAdmin : ℕ)
    (k : Pubkey) : ℤ :=
  (w k).lamports + (if k = executor then toExecutor else 0) + (if k = admin then toAdmin else 0) -
    (if k = thread then toExecutor + toAdmin else 0)

theorem distributePayments_lamports {w w' : Ledger} {thread executor admin : Pubkey}
    {p : PaymentDetails} (h : distributePayments w thread executor admin p = .ok w') (k : Pubkey) :
    ((w' k).lamports : ℤ) = balanceAfter w thread executor admin
      (p.feePayerReimbursement + p.executorCommission) p.coreTeamFee k := by
  simp only [distributePayments, bind_eq_ok, checkU64_eq_ok] at h
  obtain ⟨total, ⟨-, rfl⟩, w1, h1, h2⟩ := h
  have hfirst := transferLamports_lamports h1 k
  have hsecond := transferLamports_lamports h2 k
  unfold balanceAfter
  rw [hsecond, hfirst]
  split_ifs <;> push_cast <;> omega

/-- What the executor is paid cannot lift its balance out of its type. -/
theorem distributePayments_lt {w w' : Ledger} {thread executor admin : Pubkey}
    {p : PaymentDetails} (h : distributePayments w thread executor admin p = .ok w')
    (hne : executor ≠ thread) (hw : (w executor).lamports < 2 ^ 64) :
    (w executor).lamports + (p.feePayerReimbursement + p.executorCommission) < 2 ^ 64 := by
  simp only [distributePayments, bind_eq_ok, checkU64_eq_ok] at h
  obtain ⟨total, ⟨-, rfl⟩, w1, h1, -⟩ := h
  have hfits := transferLamports_lt h1 hw
  rw [(transferLamports_eq_ok h1).2 executor hne, if_pos rfl] at hfits
  exact hfits

/-- The three accounts together keep what they have, whichever of them coincide. -/
theorem balanceAfter_conserved (w : Ledger) (thread executor admin : Pubkey)
    (toExecutor toAdmin : ℕ) :
    ∑ k ∈ {thread, executor, admin}, balanceAfter w thread executor admin toExecutor toAdmin k =
      ∑ k ∈ ({thread, executor, admin} : Finset Pubkey), ((w k).lamports : ℤ) := by
  simp only [balanceAfter, Finset.sum_sub_distrib, Finset.sum_add_distrib]
  simp

/-! ## The amounts -/

/-- The amounts that are paid, by what the executor really gained. -/
structure Owed (c : ThreadConfig) (since gain : ℤ) (forgo : Bool) (p : PaymentDetails) : Prop where
  reimbursement : p.feePayerReimbursement = calculateReimbursement gain
  commission : ∃ effective, c.calculateEffectiveCommission .binary64 since = .ok effective ∧
    c.calculateCoreTeamFee effective = .ok p.coreTeamFee ∧
    if gain ≤ 0 ∧ forgo = false then c.calculateExecutorFee effective = .ok p.executorCommission
    else p.executorCommission = 0

theorem calculatePayments_owed {c : ThreadConfig} {since change : ℤ} {forgo : Bool}
    {p : PaymentDetails} (h : c.calculatePayments .binary64 since change forgo = .ok p) :
    Owed c since change forgo p := by
  simp only [ThreadConfig.calculatePayments, bind_eq_ok, pure_eq_ok] at h
  obtain ⟨effective, heffective, ⟨reimbursement, commission⟩, hshare, core, hcore, rfl⟩ := h
  unfold ThreadConfig.executorShare shouldPay at hshare
  by_cases hpay : change ≤ 0
  · simp only [hpay, decide_true, if_true] at hshare
    cases forgo with
    | true =>
      obtain ⟨rfl, rfl⟩ := Prod.mk.inj (Except.ok.inj hshare)
      exact ⟨rfl, effective, heffective, hcore, by simp⟩
    | false =>
      simp only [Bool.false_eq_true, if_false, map_eq_ok] at hshare
      obtain ⟨m, hm, heq⟩ := hshare
      obtain ⟨rfl, rfl⟩ := Prod.mk.inj heq
      exact ⟨rfl, effective, heffective, hcore, by simpa [hpay] using hm⟩
  · simp only [hpay, decide_false, Bool.false_eq_true, if_false] at hshare
    obtain ⟨rfl, rfl⟩ := Prod.mk.inj (Except.ok.inj hshare)
    refine ⟨?_, effective, heffective, hcore, by simp [hpay]⟩
    unfold calculateReimbursement
    rw [if_neg (by omega), if_pos (by omega)]

/-- The amounts are determined by the gain. -/
theorem Owed.coreTeamFee_eq {c : ThreadConfig} {since gain gain' : ℤ} {forgo : Bool}
    {p p' : PaymentDetails} (h : Owed c since gain forgo p) (h' : Owed c since gain' forgo p') :
    p.coreTeamFee = p'.coreTeamFee := by
  obtain ⟨effective, heffective, hcore, -⟩ := h.commission
  obtain ⟨effective', heffective', hcore', -⟩ := h'.commission
  rw [heffective] at heffective'
  obtain rfl := Except.ok.inj heffective'
  rw [hcore] at hcore'
  exact Except.ok.inj hcore'

/-- The difference of the casts is exact, or off by the whole range. -/
theorem change_cases {start after : ℕ} (hstart : start < 2 ^ 64) (hafter : after < 2 ^ 64) {change : ℤ}
    (h : checkI64 (asI64 after - asI64 start) = .ok change) :
    (change = after - start ∧ start ≤ after + 2 ^ 63) ∨
      (change = after - start - 2 ^ 64 ∧ change < 0) ∨
      (change = after - start + 2 ^ 64 ∧ 0 < change ∧ after + 2 ^ 63 < start) := by
  obtain ⟨⟨hlow, hhigh⟩, rfl⟩ := checkI64_eq_ok.mp h
  unfold asI64 at hlow hhigh ⊢
  split_ifs at hlow hhigh ⊢ <;> omega

namespace ThreadProgram

/-- The three accounts keep their lamports, each is paid what it is owed, and the executor
is whole. -/
structure PaysOwed (a : ExecArgs) (since : ℤ) (start : ℕ) (w w' : Ledger) : Prop where
  conserved : ∑ k ∈ ({a.thread, a.executor, a.admin} : Finset Pubkey), (w' k).lamports =
    ∑ k ∈ ({a.thread, a.executor, a.admin} : Finset Pubkey), (w k).lamports
  paid : ∃ p, Owed a.config since ((w a.executor).lamports - start) a.forgoCommission p ∧
    ∀ k, ((w' k).lamports : ℤ) = balanceAfter w a.thread a.executor a.admin
      (p.feePayerReimbursement + p.executorCommission) p.coreTeamFee k
  whole : start ≤ (w' a.executor).lamports

/-- A transaction that fails changes nothing. -/
def commit (w : Ledger) : Result Ledger → Ledger
  | .ok w' => w'
  | .error _ => w

/-- Payments by the real gain are what is owed. -/
theorem paysOwed_of_owed {a : ExecArgs} {since : ℤ} {start : ℕ} {w w' : Ledger}
    {p : PaymentDetails} (hne : a.executor ≠ a.thread)
    (howed : Owed a.config since ((w a.executor).lamports - start) a.forgoCommission p)
    (hdist : distributePayments w a.thread a.executor a.admin p = .ok w') :
    PaysOwed a since start w w' := by
  have hbalance := distributePayments_lamports hdist
  refine ⟨?_, ⟨p, howed, hbalance⟩, ?_⟩
  · have hsum := balanceAfter_conserved w a.thread a.executor a.admin
      (p.feePayerReimbursement + p.executorCommission) p.coreTeamFee
    simp only [← hbalance] at hsum
    exact_mod_cast hsum
  · have hexecutor := hbalance a.executor
    have hreimbursed := howed.reimbursement
    unfold balanceAfter at hexecutor
    unfold calculateReimbursement at hreimbursed
    rw [if_pos rfl, if_neg hne] at hexecutor
    split_ifs at hexecutor hreimbursed <;> omega

/-- A loss that was taken for a gain is not paid. -/
theorem not_paysOwed_of_gain {a : ExecArgs} {since change : ℤ} {start : ℕ} {w w' : Ledger}
    {p : PaymentDetails} (hne : a.executor ≠ a.thread)
    (howed : Owed a.config since change a.forgoCommission p) (hgain : 0 < change)
    (hloss : (w a.executor).lamports < start)
    (hdist : distributePayments w a.thread a.executor a.admin p = .ok w') :
    ¬ PaysOwed a since start w w' := by
  intro h
  obtain ⟨p', howed', hbalance'⟩ := h.paid
  have hexecutor := distributePayments_lamports hdist a.executor
  have hexecutor' := hbalance' a.executor
  have hcore := howed.coreTeamFee_eq howed'
  have hnothing : p.feePayerReimbursement + p.executorCommission = 0 := by
    obtain ⟨effective, -, -, hcommission⟩ := howed.commission
    rw [if_neg (by omega)] at hcommission
    rw [howed.reimbursement, calculateReimbursement, if_neg (by omega), if_pos hgain, hcommission]
  have hreimbursed := howed'.reimbursement
  rw [calculateReimbursement, if_pos (by omega)] at hreimbursed
  simp only [balanceAfter, if_true, if_neg hne, hnothing, hcore] at hexecutor hexecutor'
  omega

/-- The payment step fails without effect, or it pays what is owed exactly if the executor
has not lost more than half of the range of its balance. -/
theorem payments_owed_iff {a : ExecArgs} {s : Signal} (hs : s ≠ .chain) {since : ℤ} {start : ℕ}
    {w : Ledger} (hne : a.executor ≠ a.thread) (hstart : start < 2 ^ 64)
    (hw : (w a.executor).lamports < 2 ^ 64) :
    (∀ err, settle a s since start w = .error err → commit w (settle a s since start w) = w) ∧
    ∀ w', settle a s since start w = .ok w' →
      (PaysOwed a since start w w' ↔ start ≤ (w a.executor).lamports + 2 ^ 63) := by
  constructor
  · intro err herr
    rw [herr]
    rfl
  · intro w' h
    rw [settle, if_neg hs] at h
    simp only [settlePayments, bind_eq_ok] at h
    obtain ⟨change, hchange, p, hp, -, -, hdist⟩ := h
    have howed := calculatePayments_owed hp
    rcases change_cases hstart hw hchange with ⟨rfl, hle⟩ | ⟨hwrapped, hneg⟩ | ⟨-, hpos, hlost⟩
    · exact ⟨fun _ => hle, fun _ => paysOwed_of_owed hne howed hdist⟩
    · have hfits := distributePayments_lt hdist hne hw
      have hreimbursed := howed.reimbursement
      rw [calculateReimbursement, if_pos hneg] at hreimbursed
      omega
    · refine ⟨fun howes => ?_, fun hle => absurd hle (by omega)⟩
      exact absurd howes (not_paysOwed_of_gain hne howed hpos (by omega) hdist)

/-- Executor 9 settles with thread 1, whose admin is account 4. -/
def settleAfter (balance : ℕ) : Ledger := fun k =>
  if k = 1 then ⟨1000000, threadProgram, .thread (sampleThread (.immediate 0) [0])⟩
  else if k = 9 then ⟨balance, systemProgram, .bytes []⟩
  else Account.vacant

/-- The executor loses all of 2⁶³ + 1 lamports, and nothing is reimbursed. -/
theorem large_loss_is_not_reimbursed :
    ∃ w', settle (sampleArgs 0) .none 0 (2 ^ 63 + 1) (settleAfter 0) = .ok w' ∧
      (w' 9).lamports = 0 ∧ ¬ PaysOwed (sampleArgs 0) 0 (2 ^ 63 + 1) (settleAfter 0) w' := by
  have hrun : (settle (sampleArgs 0) .none 0 (2 ^ 63 + 1) (settleAfter 0)).map
      (fun w' => (w' 9).lamports) = .ok 0 := by
    decide +kernel
  obtain ⟨w', hw', hbalance⟩ := map_eq_ok.mp hrun
  refine ⟨w', hw', hbalance, fun h => ?_⟩
  have hwhole : 2 ^ 63 + 1 ≤ (w' 9).lamports := h.whole
  omega

theorem small_loss_is_reimbursed :
    ∃ w', settle (sampleArgs 0) .none 0 5000 (settleAfter 2000) = .ok w' ∧
      (w' 9).lamports = 5000 ∧ PaysOwed (sampleArgs 0) 0 5000 (settleAfter 2000) w' := by
  have hrun : (settle (sampleArgs 0) .none 0 5000 (settleAfter 2000)).map
      (fun w' => (w' 9).lamports) = .ok 5000 := by
    decide +kernel
  obtain ⟨w', hw', hbalance⟩ := map_eq_ok.mp hrun
  exact ⟨w', hw', hbalance, ((payments_owed_iff (by decide) (by decide) (by decide)
    (by decide)).2 w' hw').mpr (by decide)⟩

end ThreadProgram

end Antegen
