import Mathlib.Tactic

/-!
# Keys, failures and machine integers

An address is its thirty-two bytes read as a number, first byte least
significant. Lamports and other unsigned fields are natural numbers and signed
fields are integers; the width checks and saturations of the source are written
out where the source performs them. The programs are built with overflow checks,
so an unchecked operator that overflows ends the instruction as `panic`.
-/
namespace Antegen

abbrev Pubkey := BitVec 256

def systemProgram : Pubkey := 0

/-- `declare_id!` of the fiber program. -/
def fiberProgram : Pubkey :=
  0x5b4bafe9a506c1bb65ff74e669e58484f430bcc588532ad990934692d1b2c78f#256

/-- `declare_id!` of the thread program. -/
def threadProgram : Pubkey :=
  0x4d5dcecaaa3cdfed50c47a60e57400d58a5beaeda5e2d94a143737cb5e44d58f#256

/-- `PAYER_PUBKEY`, the placeholder a stored instruction uses for its executor. -/
def payerPubkey : Pubkey :=
  0x80ebc5f135ebfb65ee6ce1fc7fb1ba5dd0cd557ad22d1d304fa81d8202#256

theorem threadProgram_ne_fiberProgram : threadProgram ≠ fiberProgram := by decide

theorem threadProgram_ne_systemProgram : threadProgram ≠ systemProgram := by decide

theorem fiberProgram_ne_systemProgram : fiberProgram ≠ systemProgram := by decide

/-- Variants of `AntegenThreadError` that the modelled instructions raise. -/
inductive ThreadError
  | invalidThreadState
  | invalidNonceAccount
  | triggerConditionFailed
  | threadPaused
  | unauthorizedWrite
  | invalidInstruction
  | wrongFiberIndex
  | nonceRequired
  | invalidConfigAdmin
  | globalPauseActive
  | missingFiberAccount
  | invalidFiberIndex
  | threadHasNoFibersToExecute
  | invalidExecIndex
  | invalidFiberAccount
  | missingFiberAccounts
  | invalidAuthority
  | invalidFeePercentage
  deriving DecidableEq, Repr

/-- Variants of `AntegenFiberError`. -/
inductive FiberError
  | invalidFiberPDA
  | insufficientRent
  | lookupTablesExceedMax
  | legacyFiberLookupTablesUnsupported
  | invalidFiberData
  deriving DecidableEq, Repr

/-- Every way an instruction can fail. A failed instruction changes nothing. -/
inductive Error
  | thread (e : ThreadError)
  | fiber (e : FiberError)
  | insufficientFunds
  | arithmeticOverflow
  | invalidInstructionData
  | borsh
  | instructionMissing
  | constraint
  | constraintSeeds
  | accountDiscriminator
  | accountOwner
  | accountInUse
  | externalAccountModified
  | callee
  | panic
  deriving DecidableEq, Repr

abbrev Result (α : Type) := Except Error α

def require (p : Prop) [Decidable p] (e : Error) : Result Unit :=
  if p then .ok () else .error e

def ofOption {α : Type} (e : Error) : Option α → Result α
  | some a => .ok a
  | none => .error e

@[simp] theorem bind_eq_ok {ε α β : Type} {x : Except ε α} {f : α → Except ε β} {b : β} :
    (x >>= f) = .ok b ↔ ∃ a, x = .ok a ∧ f a = .ok b := by
  cases x with
  | error e => simp [bind, Except.bind]
  | ok a => simp [bind, Except.bind]

@[simp] theorem map_eq_ok {ε α β : Type} {x : Except ε α} {f : α → β} {b : β} :
    x.map f = .ok b ↔ ∃ a, x = .ok a ∧ f a = b := by
  cases x <;> simp [Except.map]

@[simp] theorem require_eq_ok {p : Prop} [Decidable p] {e : Error} {u : Unit} :
    require p e = .ok u ↔ p := by
  unfold require
  split <;> simp_all

@[simp] theorem ofOption_eq_ok {α : Type} {e : Error} {x : Option α} {a : α} :
    ofOption e x = .ok a ↔ x = some a := by
  cases x <;> simp [ofOption]

@[simp] theorem pure_eq_ok {ε α : Type} {a b : α} : (pure a : Except ε α) = .ok b ↔ a = b := by
  simp [pure, Except.pure]

theorem toOption_eq_some {ε α : Type} {x : Except ε α} {a : α} :
    x.toOption = some a ↔ x = .ok a := by
  cases x <;> simp [Except.toOption]

@[simp] theorem throw_eq_ok {α : Type} {e : Error} {b : α} :
    (throw e : Result α) = .ok b ↔ False := by
  simp [throw, throwThe, MonadExceptOf.throw]

/-- A traversal whose every step succeeds is a map. -/
theorem mapM_eq_ok_map {α β : Type} {f : α → Result β} {g : α → β} {l : List α}
    (h : ∀ a ∈ l, f a = .ok (g a)) : l.mapM f = .ok (l.map g) := by
  induction l with
  | nil => rfl
  | cons a l ih =>
    rw [List.mapM_cons, h a List.mem_cons_self, ih fun b hb => h b (List.mem_cons_of_mem _ hb)]
    rfl

/-! ## Widths -/

/-- A `u64` operator with overflow checks. -/
def checkU64 (n : ℕ) : Result ℕ := if n < 2 ^ 64 then .ok n else .error .panic

/-- An `i64` operator with overflow checks. -/
def checkI64 (z : ℤ) : Result ℤ :=
  if -2 ^ 63 ≤ z ∧ z < 2 ^ 63 then .ok z else .error .panic

/-- The cast `as i64` of a `u64`. -/
def asI64 (n : ℕ) : ℤ := if n < 2 ^ 63 then n else (n : ℤ) - 2 ^ 64

/-- Saturation at the ends of the `i64` range. -/
def saturate (z : ℤ) : ℤ := max (-2 ^ 63) (min (2 ^ 63 - 1) z)

@[simp] theorem checkU64_eq_ok {n m : ℕ} : checkU64 n = .ok m ↔ n < 2 ^ 64 ∧ n = m := by
  unfold checkU64
  split <;> simp_all

@[simp] theorem checkI64_eq_ok {z y : ℤ} :
    checkI64 z = .ok y ↔ (-2 ^ 63 ≤ z ∧ z < 2 ^ 63) ∧ z = y := by
  unfold checkI64
  split <;> simp_all

end Antegen
