import Antegen.CompileRoundTrip

/-!
# Fiber accounts on disk

Two shapes of fiber account exist. Both start with an eight-byte discriminator and
continue with the Borsh encoding of the state; bytes after the encoding are left
over from earlier, longer states and ignored. A write replaces a prefix of the
data and never changes its length.
-/
namespace Antegen

open Borsh

def currentFiberVersion : UInt8 := 1

def maxLookupTablesPerFiber : ℕ := 4

/-- Legacy fiber state, without version and lookup tables. -/
structure FiberState where
  thread : Pubkey
  compiledInstruction : List UInt8
  lastExecuted : ℤ
  execCount : ℕ
  priorityFee : ℕ
  deriving DecidableEq, Repr

structure FiberVersionedState where
  version : UInt8
  thread : Pubkey
  compiledInstruction : List UInt8
  lastExecuted : ℤ
  execCount : ℕ
  priorityFee : ℕ
  lookupTables : List Pubkey
  deriving DecidableEq, Repr

inductive Fiber
  | legacy (s : FiberState)
  | v1 (s : FiberVersionedState)
  deriving DecidableEq, Repr

namespace FiberState

/-- First eight bytes of the SHA-256 hash of `account:FiberState`. -/
def discriminator : List UInt8 := [54, 11, 251, 60, 63, 197, 85, 36]

/-- Fixed fields, and room for 1024 bytes of compiled instruction. -/
def initSpace : ℕ := 32 + (4 + 1024) + 8 + 8 + 8

def codec : Codec FiberState :=
  (pubkeyCodec.pair ((vec u8).pair ((sint 8).pair ((uint 8).pair (uint 8))))).imap
    (fun s => (s.thread, s.compiledInstruction, s.lastExecuted, s.execCount, s.priorityFee))
    (fun p => ⟨p.1, p.2.1, p.2.2.1, p.2.2.2.1, p.2.2.2.2⟩) (fun _ => rfl)

end FiberState

namespace FiberVersionedState

/-- First eight bytes of the SHA-256 hash of `account:FiberVersionedState`. -/
def discriminator : List UInt8 := [44, 189, 177, 15, 156, 167, 20, 86]

/-- As the legacy state, with a version byte and room for four lookup tables. -/
def initSpace : ℕ := 1 + 32 + (4 + 1024) + 8 + 8 + 8 + (4 + 4 * 32)

def codec : Codec FiberVersionedState :=
  (u8.pair (pubkeyCodec.pair ((vec u8).pair ((sint 8).pair ((uint 8).pair
    ((uint 8).pair (vec pubkeyCodec))))))).imap
    (fun s => (s.version, s.thread, s.compiledInstruction, s.lastExecuted, s.execCount,
      s.priorityFee, s.lookupTables))
    (fun p => ⟨p.1, p.2.1, p.2.2.1, p.2.2.2.1, p.2.2.2.2.1, p.2.2.2.2.2.1, p.2.2.2.2.2.2⟩)
    (fun _ => rfl)

end FiberVersionedState

/-- Discriminator of an account closed by the fiber program. -/
def closedDiscriminator : List UInt8 := List.replicate 8 0xff

namespace Fiber

/-- `Fiber::try_deserialize`: dispatch on the discriminator. -/
def tryDeserialize (buf : List UInt8) : Result Fiber :=
  if buf.length < 8 then .error (.fiber .invalidFiberData)
  else if buf.take 8 = FiberVersionedState.discriminator then
    (ofOption .borsh (FiberVersionedState.codec.dec (buf.drop 8))).map fun p => .v1 p.1
  else if buf.take 8 = FiberState.discriminator then
    (ofOption .borsh (FiberState.codec.dec (buf.drop 8))).map fun p => .legacy p.1
  else .error (.fiber .invalidFiberData)

def thread : Fiber → Pubkey
  | legacy s => s.thread
  | v1 s => s.thread

def compiledInstruction : Fiber → List UInt8
  | legacy s => s.compiledInstruction
  | v1 s => s.compiledInstruction

def priorityFee : Fiber → ℕ
  | legacy s => s.priorityFee
  | v1 s => s.priorityFee

def isLegacy : Fiber → Bool
  | legacy _ => true
  | v1 _ => false

def lookupTables : Fiber → List Pubkey
  | legacy _ => []
  | v1 s => s.lookupTables

end Fiber

/-- `decompile_with_payer`: the placeholder is replaced among the accounts only. -/
def decompileWithPayer (compiled : List UInt8) (executor : Pubkey) : Result Instruction := do
  let c ← ofOption .borsh (compiledInstructionCodec.fromSlice compiled)
  let ix ← decompileInstruction c
  pure { ix with
    accounts := ix.accounts.map fun acc =>
      if acc.pubkey = payerPubkey then { acc with pubkey := executor } else acc }

def Fiber.getInstruction (f : Fiber) (executor : Pubkey) : Result Instruction :=
  decompileWithPayer f.compiledInstruction executor

/-- `borsh::to_vec(&compile_instruction(ix)?)?`. -/
def compileToBytes (o : HashOrder) (ix : Instruction) : Result (List UInt8) := do
  let c ← compileInstruction o ix
  ofOption .borsh (compiledInstructionCodec.enc c)

/-- Overwrites the discriminator and the state at the front of account data. -/
def overwrite (data disc state : List UInt8) : Result (List UInt8) :=
  if 8 + state.length ≤ data.length then .ok (disc ++ state ++ data.drop (8 + state.length))
  else .error .panic

/-- `write_legacy` on the bytes of an account. -/
def FiberState.write (data : List UInt8) (s : FiberState) : Result (List UInt8) := do
  let bytes ← ofOption .borsh (FiberState.codec.enc s)
  overwrite data FiberState.discriminator bytes

/-- `write_versioned` on the bytes of an account. -/
def FiberVersionedState.write (data : List UInt8) (s : FiberVersionedState) :
    Result (List UInt8) := do
  let bytes ← ofOption .borsh (FiberVersionedState.codec.enc s)
  overwrite data FiberVersionedState.discriminator bytes

/-- Writes either shape. -/
def Fiber.write (data : List UInt8) : Fiber → Result (List UInt8)
  | .legacy s => s.write data
  | .v1 s => s.write data

/-- Data left behind by `sweep_fiber_lamports`. -/
def sweptData (data : List UInt8) : List UInt8 :=
  if 8 ≤ data.length then closedDiscriminator ++ List.replicate (data.length - 8) 0
  else List.replicate data.length 0

/-! ## Reading back -/

theorem overwrite_eq_ok {data disc state out : List UInt8}
    (h : overwrite data disc state = .ok out) :
    8 + state.length ≤ data.length ∧ out = disc ++ state ++ data.drop (8 + state.length) := by
  unfold overwrite at h
  split at h
  · exact ⟨‹_›, (Except.ok.inj h).symm⟩
  · exact absurd h (by simp)

theorem overwrite_length {data disc state out : List UInt8} (hd : disc.length = 8)
    (h : overwrite data disc state = .ok out) : out.length = data.length := by
  obtain ⟨hle, rfl⟩ := overwrite_eq_ok h
  simp only [List.length_append, List.length_drop, hd]
  omega

theorem Fiber.write_length {data out : List UInt8} {f : Fiber} (h : f.write data = .ok out) :
    out.length = data.length := by
  cases f with
  | legacy s =>
    simp only [Fiber.write, FiberState.write, bind_eq_ok, ofOption_eq_ok] at h
    obtain ⟨bytes, -, h⟩ := h
    exact overwrite_length rfl h
  | v1 s =>
    simp only [Fiber.write, FiberVersionedState.write, bind_eq_ok, ofOption_eq_ok] at h
    obtain ⟨bytes, -, h⟩ := h
    exact overwrite_length rfl h

/-- A written state is read back, whatever bytes it was written over. -/
theorem Fiber.tryDeserialize_write {data out : List UInt8} {f : Fiber}
    (h : f.write data = .ok out) : Fiber.tryDeserialize out = .ok f := by
  cases f with
  | legacy s =>
    simp only [Fiber.write, FiberState.write, bind_eq_ok, ofOption_eq_ok] at h
    obtain ⟨bytes, henc, h⟩ := h
    obtain ⟨-, rfl⟩ := overwrite_eq_ok h
    have hdec := FiberState.codec.dec_enc s bytes (data.drop (8 + bytes.length)) henc
    simp [Fiber.tryDeserialize, FiberState.discriminator, FiberVersionedState.discriminator,
      List.take, hdec, ofOption, Except.map]
  | v1 s =>
    simp only [Fiber.write, FiberVersionedState.write, bind_eq_ok, ofOption_eq_ok] at h
    obtain ⟨bytes, henc, h⟩ := h
    obtain ⟨-, rfl⟩ := overwrite_eq_ok h
    have hdec := FiberVersionedState.codec.dec_enc s bytes (data.drop (8 + bytes.length)) henc
    simp [Fiber.tryDeserialize, FiberVersionedState.discriminator, List.take, hdec, ofOption,
      Except.map]

@[simp] theorem sweptData_length (data : List UInt8) : (sweptData data).length = data.length := by
  unfold sweptData
  split
  · simp only [closedDiscriminator, List.length_append, List.length_replicate]
    omega
  · simp

/-- A closed account is never read as a fiber again. -/
theorem tryDeserialize_sweptData (data : List UInt8) (f : Fiber) :
    Fiber.tryDeserialize (sweptData data) ≠ .ok f := by
  intro h
  unfold Fiber.tryDeserialize at h
  rw [sweptData_length] at h
  by_cases hlen : data.length < 8
  · simp [hlen] at h
  · have htake : (sweptData data).take 8 = closedDiscriminator := by
      rw [sweptData, if_pos (by omega), List.take_append_of_le_length (by decide)]
      rfl
    rw [if_neg hlen, htake, if_neg (by decide), if_neg (by decide)] at h
    exact absurd h (by simp)

end Antegen
