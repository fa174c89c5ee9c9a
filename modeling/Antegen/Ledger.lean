import Antegen.ThreadState

/-!
# Accounts and the rules of the runtime

A ledger maps every address to an account. The data of a thread account is the
deserialized thread; all other data are bytes. Only the owner of an account may
change its data or lower its balance, which is checked at every write. The
system program's instructions and the disposal of empty accounts at the end of a
transaction are the runtime's own.
-/
namespace Antegen

inductive AccountData
  | bytes (b : List UInt8)
  | thread (t : Thread)
  deriving DecidableEq, Repr

namespace AccountData

def isEmpty : AccountData → Bool
  | bytes b => b.isEmpty
  | thread _ => false

end AccountData

structure Account where
  lamports : ℕ
  owner : Pubkey
  data : AccountData
  deriving DecidableEq, Repr

abbrev Ledger := Pubkey → Account

/-- An address that no account occupies. -/
def Account.vacant : Account := ⟨0, systemProgram, .bytes []⟩

namespace Ledger

def setLamports (w : Ledger) (k : Pubkey) (n : ℕ) : Ledger :=
  Function.update w k { w k with lamports := n }

def setData (w : Ledger) (k : Pubkey) (d : AccountData) : Ledger :=
  Function.update w k { w k with data := d }

def setOwner (w : Ledger) (k owner : Pubkey) : Ledger :=
  Function.update w k { w k with owner := owner }

section Fields

variable (w : Ledger) (k j : Pubkey)

@[simp] theorem setLamports_lamports (n : ℕ) :
    (w.setLamports k n j).lamports = if j = k then n else (w j).lamports := by
  by_cases h : j = k
  · subst h; simp [setLamports]
  · simp [setLamports, h]

@[simp] theorem setLamports_owner (n : ℕ) : (w.setLamports k n j).owner = (w j).owner := by
  by_cases h : j = k
  · subst h; simp [setLamports]
  · simp [setLamports, h]

@[simp] theorem setLamports_data (n : ℕ) : (w.setLamports k n j).data = (w j).data := by
  by_cases h : j = k
  · subst h; simp [setLamports]
  · simp [setLamports, h]

@[simp] theorem setData_lamports (d : AccountData) :
    (w.setData k d j).lamports = (w j).lamports := by
  by_cases h : j = k
  · subst h; simp [setData]
  · simp [setData, h]

@[simp] theorem setData_owner (d : AccountData) : (w.setData k d j).owner = (w j).owner := by
  by_cases h : j = k
  · subst h; simp [setData]
  · simp [setData, h]

@[simp] theorem setData_data (d : AccountData) :
    (w.setData k d j).data = if j = k then d else (w j).data := by
  by_cases h : j = k
  · subst h; simp [setData]
  · simp [setData, h]

@[simp] theorem setOwner_lamports (p : Pubkey) :
    (w.setOwner k p j).lamports = (w j).lamports := by
  by_cases h : j = k
  · subst h; simp [setOwner]
  · simp [setOwner, h]

@[simp] theorem setOwner_owner (p : Pubkey) :
    (w.setOwner k p j).owner = if j = k then p else (w j).owner := by
  by_cases h : j = k
  · subst h; simp [setOwner]
  · simp [setOwner, h]

@[simp] theorem setOwner_data (p : Pubkey) : (w.setOwner k p j).data = (w j).data := by
  by_cases h : j = k
  · subst h; simp [setOwner]
  · simp [setOwner, h]

variable {k j}

theorem setLamports_of_ne (h : j ≠ k) (n : ℕ) : w.setLamports k n j = w j := by
  simp [setLamports, h]

theorem setData_of_ne (h : j ≠ k) (d : AccountData) : w.setData k d j = w j := by
  simp [setData, h]

theorem setOwner_of_ne (h : j ≠ k) (p : Pubkey) : w.setOwner k p j = w j := by
  simp [setOwner, h]

end Fields

/-- A program writes account data: the owner may, and others only what is there. -/
def writeData (program : Pubkey) (w : Ledger) (k : Pubkey) (d : AccountData) : Result Ledger :=
  if (w k).data = d then .ok w
  else if (w k).owner = program then .ok (w.setData k d)
  else .error .externalAccountModified

/-- A program sets a balance: anyone may raise it, only the owner may lower it. -/
def writeLamports (program : Pubkey) (w : Ledger) (k : Pubkey) (n : ℕ) : Result Ledger :=
  if (w k).lamports ≤ n then .ok (w.setLamports k n)
  else if (w k).owner = program then .ok (w.setLamports k n)
  else .error .externalAccountModified

theorem setData_self (w : Ledger) (k : Pubkey) : w.setData k (w k).data = w := by
  funext j
  by_cases h : j = k
  · subst h
    simp [setData]
  · simp [setData, h]

theorem writeData_eq_ok {program : Pubkey} {w w' : Ledger} {k : Pubkey} {d : AccountData}
    (h : w.writeData program k d = .ok w') :
    w' = w.setData k d ∧ ((w k).data = d ∨ (w k).owner = program) := by
  unfold writeData at h
  split at h
  · rename_i hd
    refine ⟨?_, Or.inl hd⟩
    rw [← Except.ok.inj h, ← hd, setData_self]
  · split at h
    · exact ⟨(Except.ok.inj h).symm, Or.inr ‹_›⟩
    · exact absurd h (by simp)

theorem writeLamports_eq_ok {program : Pubkey} {w w' : Ledger} {k : Pubkey} {n : ℕ}
    (h : w.writeLamports program k n = .ok w') :
    w' = w.setLamports k n ∧ ((w k).lamports ≤ n ∨ (w k).owner = program) := by
  unfold writeLamports at h
  split at h
  · exact ⟨(Except.ok.inj h).symm, Or.inl ‹_›⟩
  · split at h
    · exact ⟨(Except.ok.inj h).symm, Or.inr ‹_›⟩
    · exact absurd h (by simp)

/-! ## System program -/

/-- `SystemInstruction::Allocate`, for an account that has signed. -/
def allocate (w : Ledger) (k : Pubkey) (space : ℕ) : Result Ledger := do
  require ((w k).data.isEmpty ∧ (w k).owner = systemProgram) .accountInUse
  pure (w.setData k (.bytes (List.replicate space 0)))

/-- `SystemInstruction::Assign`, for an account that has signed. -/
def assign (w : Ledger) (k owner : Pubkey) : Result Ledger :=
  if (w k).owner = owner then .ok w
  else if (w k).owner = systemProgram then .ok (w.setOwner k owner)
  else .error .externalAccountModified

/-- `SystemInstruction::Transfer`, for a source that has signed. -/
def transfer (w : Ledger) (source target : Pubkey) (amount : ℕ) : Result Ledger := do
  require ((w source).data.isEmpty ∧ (w source).owner = systemProgram) .externalAccountModified
  require (amount ≤ (w source).lamports) .insufficientFunds
  let w := w.setLamports source ((w source).lamports - amount)
  require ((w target).lamports + amount < 2 ^ 64) .arithmeticOverflow
  pure (w.setLamports target ((w target).lamports + amount))

/-- End of a transaction: accounts without lamports cease to exist. -/
def collect (w : Ledger) : Ledger := fun k => if (w k).lamports = 0 then Account.vacant else w k

/-! ## Thread accounts -/

/-- The thread stored at an address, if the account is a thread account. -/
def threadAt (w : Ledger) (k : Pubkey) : Option Thread :=
  match (w k).data with
  | .thread t => if (w k).owner = threadProgram then some t else none
  | .bytes _ => none

/-- Entry of an instruction: the account is deserialized into a copy. -/
def loadThread (w : Ledger) (k : Pubkey) : Result Thread := do
  require ((w k).owner = threadProgram) .accountOwner
  match (w k).data with
  | .thread t => pure t
  | .bytes _ => throw .accountDiscriminator

/-- An account closed during the instruction is not written back. -/
def isClosed (w : Ledger) (k : Pubkey) : Bool :=
  (w k).owner = systemProgram && (w k).data.isEmpty

/-- Exit of an instruction: its copy of the thread is serialized. -/
def exitThread (w : Ledger) (k : Pubkey) (t : Thread) : Result Ledger :=
  if w.isClosed k then .ok w else w.writeData threadProgram k (.thread t)

theorem threadAt_eq_some {w : Ledger} {k : Pubkey} {t : Thread} :
    w.threadAt k = some t ↔ (w k).owner = threadProgram ∧ (w k).data = .thread t := by
  unfold threadAt
  cases (w k).data with
  | bytes b => simp
  | thread u =>
    by_cases h : (w k).owner = threadProgram
    · simp [h]
    · simp [h]

theorem loadThread_eq_ok {w : Ledger} {k : Pubkey} {t : Thread} :
    w.loadThread k = .ok t ↔ w.threadAt k = some t := by
  rw [threadAt_eq_some]
  simp only [loadThread, bind_eq_ok, require_eq_ok, exists_and_left, exists_const]
  constructor
  · rintro ⟨ho, h⟩
    cases hd : (w k).data with
    | bytes b => simp [hd] at h
    | thread u =>
      rw [hd] at h
      exact ⟨ho, by rw [pure_eq_ok.mp h]⟩
  · rintro ⟨ho, hd⟩
    exact ⟨ho, by rw [hd]; rfl⟩

/-- What an address holds after the exit of an instruction on its thread. -/
theorem exitThread_threadAt {w w' : Ledger} {k : Pubkey} {t : Thread}
    (h : w.exitThread k t = .ok w') :
    (w.isClosed k = true ∧ w' = w) ∨
      (w.isClosed k = false ∧ w' = w.setData k (.thread t)) := by
  unfold exitThread at h
  split at h
  · exact Or.inl ⟨‹_›, (Except.ok.inj h).symm⟩
  · rename_i hc
    exact Or.inr ⟨Bool.eq_false_of_not_eq_true hc, (writeData_eq_ok h).1⟩

/-- The copy is stored in an account that is still the program's. -/
theorem exitThread_succeeds {w : Ledger} {k : Pubkey}
    (h : w.isClosed k = true ∨ (w k).owner = threadProgram) (t : Thread) :
    ∃ w', w.exitThread k t = .ok w' := by
  unfold exitThread
  split_ifs with hclosed
  · exact ⟨w, rfl⟩
  · have howner := h.resolve_left hclosed
    unfold writeData
    split_ifs
    · exact ⟨_, rfl⟩
    · exact ⟨_, rfl⟩

section Exit

variable {w w' : Ledger} {k : Pubkey} {t : Thread} (h : w.exitThread k t = .ok w')

include h

theorem exitThread_lamports (j : Pubkey) : (w' j).lamports = (w j).lamports := by
  rcases exitThread_threadAt h with ⟨-, rfl⟩ | ⟨-, rfl⟩
  · rfl
  · simp

theorem exitThread_owner (j : Pubkey) : (w' j).owner = (w j).owner := by
  rcases exitThread_threadAt h with ⟨-, rfl⟩ | ⟨-, rfl⟩
  · rfl
  · simp

theorem exitThread_of_ne {j : Pubkey} (hj : j ≠ k) : w' j = w j := by
  rcases exitThread_threadAt h with ⟨-, rfl⟩ | ⟨-, rfl⟩
  · rfl
  · exact setData_of_ne w hj _

/-- An account that is still the program's holds the instruction's copy. -/
theorem exitThread_data (howner : (w' k).owner = threadProgram) : (w' k).data = .thread t := by
  rcases exitThread_threadAt h with ⟨hclosed, rfl⟩ | ⟨-, rfl⟩
  · simp only [isClosed, Bool.and_eq_true, decide_eq_true_eq] at hclosed
    exact absurd (howner.symm.trans hclosed.1) threadProgram_ne_systemProgram
  · simp

theorem threadAt_exitThread_of_owner (howner : (w k).owner = threadProgram) :
    w'.threadAt k = some t := by
  have howner' : (w' k).owner = threadProgram := by rw [exitThread_owner h, howner]
  exact threadAt_eq_some.mpr ⟨howner', exitThread_data h howner'⟩

/-- A thread found at the address after an exit is the instruction's copy. -/
theorem eq_of_threadAt_exitThread {u : Thread} (hu : w'.threadAt k = some u) : u = t := by
  obtain ⟨howner, hdata⟩ := threadAt_eq_some.mp hu
  rw [exitThread_data h howner] at hdata
  exact (AccountData.thread.inj hdata).symm

end Exit

end Ledger

end Antegen
