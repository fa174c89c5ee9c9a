import Antegen.Payments
import Antegen.Transition

/-!
# The fee configuration

`config_init` writes the defaults and `config_update` overwrites any of the fields. An
update checks each new value when it writes it and the sum of the two shares at the end,
so the shares that are kept count as well. What the checks establish is enough for the
commission to be computed, to decay and to be split.
-/
namespace Antegen

open Transition

structure ConfigUpdateParams where
  admin : Option Pubkey
  paused : Option Bool
  commissionFee : Option ℕ
  executorFeeBps : Option ℕ
  coreTeamBps : Option ℕ
  gracePeriodSeconds : Option ℤ
  feeDecaySeconds : Option ℤ
  deriving DecidableEq, Repr

namespace ThreadConfig

def configInit (bump : UInt8) (admin : Pubkey) : ThreadConfig where
  version := 1
  bump := bump
  admin := admin
  paused := false
  commissionFee := 1000
  executorFeeBps := 9000
  coreTeamBps := 1000
  gracePeriodSeconds := 5
  feeDecaySeconds := 295

/-- Every check of `config_update` raises the same error. -/
def requireFee (p : Prop) [Decidable p] : Result Unit := require p (.thread .invalidFeePercentage)

def configUpdate (c : ThreadConfig) (admin : Pubkey) (p : ConfigUpdateParams) :
    Result ThreadConfig := do
  require (admin = c.admin) (.thread .invalidAuthority)
  requireFee (∀ bps ∈ p.executorFeeBps, bps ≤ 10000)
  requireFee (∀ bps ∈ p.coreTeamBps, bps ≤ 10000)
  requireFee (∀ seconds ∈ p.gracePeriodSeconds, 0 ≤ seconds ∧ seconds ≤ 60)
  requireFee (∀ seconds ∈ p.feeDecaySeconds, 0 ≤ seconds ∧ seconds ≤ 600)
  let c := { c with
    admin := p.admin.getD c.admin
    paused := p.paused.getD c.paused
    commissionFee := p.commissionFee.getD c.commissionFee
    executorFeeBps := p.executorFeeBps.getD c.executorFeeBps
    coreTeamBps := p.coreTeamBps.getD c.coreTeamBps
    gracePeriodSeconds := p.gracePeriodSeconds.getD c.gracePeriodSeconds
    feeDecaySeconds := p.feeDecaySeconds.getD c.feeDecaySeconds }
  let totalFees ← checkU64 (c.executorFeeBps + c.coreTeamBps)
  requireFee (totalFees = 10000)
  pure c

/-- What the checks of `config_update` keep. -/
structure Valid (c : ThreadConfig) : Prop where
  fees : c.executorFeeBps + c.coreTeamBps = 10000
  grace : 0 ≤ c.gracePeriodSeconds ∧ c.gracePeriodSeconds ≤ 60
  decay : 0 ≤ c.feeDecaySeconds ∧ c.feeDecaySeconds ≤ 600

theorem configInit_valid (bump : UInt8) (admin : Pubkey) : (configInit bump admin).Valid :=
  ⟨rfl, ⟨by norm_num [configInit], by norm_num [configInit]⟩,
    ⟨by norm_num [configInit], by norm_num [configInit]⟩⟩

/-- A field is either kept or replaced by a value that was checked. -/
theorem getD_of_forall {α : Type} (P : α → Prop) {o : Option α} {a : α} (ha : P a)
    (ho : ∀ b ∈ o, P b) : P (o.getD a) := by
  cases o with
  | none => exact ha
  | some b => exact ho b rfl

/-- The step lemma. -/
theorem configUpdate_valid {c c' : ThreadConfig} {admin : Pubkey} {p : ConfigUpdateParams}
    (h : c.configUpdate admin p = .ok c') (hc : c.Valid) : c'.Valid := by
  simp only [configUpdate, requireFee, bind_eq_ok, require_eq_ok, checkU64_eq_ok, pure_eq_ok,
    exists_and_left, exists_const] at h
  obtain ⟨-, -, -, hgrace, hdecay, total, ⟨-, rfl⟩, hfees, rfl⟩ := h
  exact ⟨hfees, getD_of_forall (fun seconds => 0 ≤ seconds ∧ seconds ≤ 60) hc.grace hgrace,
    getD_of_forall (fun seconds => 0 ≤ seconds ∧ seconds ≤ 600) hc.decay hdecay⟩

/-- A successful `config_update`, with its signer and its parameters. -/
def Updates (c : ThreadConfig) (update : Pubkey × ConfigUpdateParams) (c' : ThreadConfig) : Prop :=
  c.configUpdate update.1 update.2 = .ok c'

/-- The run lemma. -/
theorem valid_of_updates {bump : UInt8} {admin : Pubkey}
    {updates : List (Pubkey × ConfigUpdateParams)} {c : ThreadConfig}
    (h : Run Updates (configInit bump admin) updates c) : c.Valid :=
  h.invariant (fun _ _ _ hc hstep => configUpdate_valid hstep hc) (configInit_valid bump admin)

/-! ## The commission -/

/-- The share of the commission that is left after a delay. -/
def decayed (c : ThreadConfig) (f : Rounding) (timeSinceReady : ℤ) : ℚ :=
  if timeSinceReady ≤ c.gracePeriodSeconds then 1
  else if timeSinceReady ≤ c.gracePeriodSeconds + c.feeDecaySeconds then
    f.round (1 - f.round
      (f.round (timeSinceReady - c.gracePeriodSeconds : ℤ) / f.round c.feeDecaySeconds))
  else 0

section Decay

variable {c : ThreadConfig} (f : Rounding) {t t' : ℤ}

end Decay

namespace Valid

variable {c : ThreadConfig} (h : c.Valid) (f : Rounding)

include h

/-- No computation of the multiplier overflows. -/
theorem multiplier_eq (t : ℤ) : c.calculateCommissionMultiplier f t = .ok (c.decayed f t) := by
  obtain ⟨hg0, hg⟩ := h.grace
  obtain ⟨hd0, hd⟩ := h.decay
  unfold calculateCommissionMultiplier decayed
  by_cases hgrace : t ≤ c.gracePeriodSeconds
  · rw [if_pos hgrace, if_pos hgrace]
  · rw [if_neg hgrace, if_neg hgrace]
    have hhorizon : checkI64 (c.gracePeriodSeconds + c.feeDecaySeconds) =
        .ok (c.gracePeriodSeconds + c.feeDecaySeconds) :=
      checkI64_eq_ok.mpr ⟨by constructor <;> omega, rfl⟩
    rw [hhorizon]
    by_cases hdecay : t ≤ c.gracePeriodSeconds + c.feeDecaySeconds
    · have hinto : checkI64 (t - c.gracePeriodSeconds) = .ok (t - c.gracePeriodSeconds) :=
        checkI64_eq_ok.mpr ⟨by constructor <;> omega, rfl⟩
      simp [bind, Except.bind, pure, Except.pure, hdecay, hinto]
    · simp [bind, Except.bind, pure, Except.pure, hdecay]

end Valid

/-- The admin takes half of the commission and lets it end without a decay. -/
def sampleUpdate : ConfigUpdateParams :=
  ⟨none, none, none, some 5000, some 5000, some 60, some 0⟩

/-- Rounding can take a lamport. -/
example : (configInit 255 4).calculateEffectiveCommission .exact 241 = .ok 200 ∧
    (configInit 255 4).calculateEffectiveCommission .binary64 241 = .ok 199 := by
  decide +kernel

end ThreadConfig

end Antegen
