import Antegen.Basic
import Antegen.Borsh
import Antegen.SortedRank
import Mathlib.Data.List.AList
import Mathlib.Data.List.Sort

/-!
# Compiled instructions

A stored instruction is a table of its distinct keys sorted by privilege, three
counters, and one table index for each account. Flags are not stored. They are
read back from the position of an index relative to the counters. The hash map
of the source is an association list with distinct keys, and the order in which
it is iterated is a parameter.
-/
namespace Antegen

structure AccountMeta where
  pubkey : Pubkey
  isSigner : Bool
  isWritable : Bool
  deriving DecidableEq, Repr

structure Instruction where
  programId : Pubkey
  accounts : List AccountMeta
  data : List UInt8
  deriving DecidableEq, Repr

structure CompiledInstructionData where
  programIdIndex : UInt8
  accounts : List UInt8
  data : List UInt8
  deriving DecidableEq, Repr

structure CompiledInstructionV0 where
  numRoSigners : UInt8
  numRwSigners : UInt8
  numRw : UInt8
  instructions : List CompiledInstructionData
  accounts : List Pubkey
  deriving DecidableEq, Repr

/-- Iteration order of a hash map: any rearrangement of its keys. -/
structure HashOrder where
  order : List Pubkey → List Pubkey
  perm : ∀ keys, (order keys).Perm keys

abbrev MetaMap := AList (fun _ : Pubkey => AccountMeta)

/-- One pass of the account loop. The entry of the program id keeps its flags. -/
def mergeAccount (programId : Pubkey) (m : MetaMap) (acc : AccountMeta) : MetaMap :=
  let entry := (m.lookup acc.pubkey).getD ⟨acc.pubkey, false, false⟩
  m.insert acc.pubkey
    (if acc.pubkey ≠ programId then
      { entry with
        isSigner := entry.isSigner || acc.isSigner
        isWritable := entry.isWritable || acc.isWritable }
    else entry)

def pubkeysToMetadata (ix : Instruction) : MetaMap :=
  ix.accounts.foldl (mergeAccount ix.programId)
    ((∅ : MetaMap).insert ix.programId ⟨ix.programId, false, false⟩)

def getPriority (m : AccountMeta) : ℕ :=
  match m.isSigner, m.isWritable with
  | true, true => 0
  | true, false => 1
  | false, true => 2
  | false, false => 3

/-- `pubkeys_to_metadata[k]`. Every key it is applied to is in the map. -/
def metaOf (m : MetaMap) (k : Pubkey) : AccountMeta :=
  (m.lookup k).getD ⟨k, false, false⟩

/-- Stable sort of the iterated keys by privilege class. -/
def sortedAccounts (o : HashOrder) (m : MetaMap) : List Pubkey :=
  (o.order m.keys).insertionSort
    (fun a b => getPriority (metaOf m a) ≤ getPriority (metaOf m b))

/-- A `u8` addition with overflow checks. -/
def addU8 (a b : UInt8) : Result UInt8 :=
  if a.toNat + b.toNat < 256 then .ok (a + b) else .error .panic

structure Counters where
  rwSigners : UInt8
  roSigners : UInt8
  rw : UInt8
  deriving DecidableEq, Repr

def countAccount (m : MetaMap) (c : Counters) (k : Pubkey) : Result Counters :=
  match (metaOf m k).isSigner, (metaOf m k).isWritable with
  | true, true => (addU8 c.rwSigners 1).map fun n => { c with rwSigners := n }
  | true, false => (addU8 c.roSigners 1).map fun n => { c with roSigners := n }
  | false, true => (addU8 c.rw 1).map fun n => { c with rw := n }
  | false, false => .ok c

/-- `accounts_to_index`: the position of a key, cast to `u8`. -/
def accountsToIndex (sorted : List Pubkey) (k : Pubkey) : Result UInt8 :=
  if k ∈ sorted then .ok (UInt8.ofNat (sorted.idxOf k)) else .error .panic

def compileInstruction (o : HashOrder) (ix : Instruction) : Result CompiledInstructionV0 := do
  let m := pubkeysToMetadata ix
  let sorted := sortedAccounts o m
  let counts ← sorted.foldlM (countAccount m) ⟨0, 0, 0⟩
  let programIdIndex ← accountsToIndex sorted ix.programId
  let accounts ← ix.accounts.mapM fun acc => accountsToIndex sorted acc.pubkey
  pure
    { numRoSigners := counts.roSigners
      numRwSigners := counts.rwSigners
      numRw := counts.rw
      instructions := [⟨programIdIndex, accounts, ix.data⟩]
      accounts := sorted }

def decompileWritable (c : CompiledInstructionV0) (idx : UInt8) : Result Bool :=
  if idx < c.numRwSigners then pure true
  else do
    let signers ← addU8 c.numRwSigners c.numRoSigners
    if idx < signers then pure false
    else do
      let writables ← addU8 signers c.numRw
      pure (decide (idx < writables))

def decompileAccount (c : CompiledInstructionV0) (idx : UInt8) : Result AccountMeta := do
  let pubkey ← ofOption .panic c.accounts[idx.toNat]?
  let isWritable ← decompileWritable c idx
  let signers ← addU8 c.numRwSigners c.numRoSigners
  pure ⟨pubkey, decide (idx < signers), isWritable⟩

def decompileInstruction (c : CompiledInstructionV0) : Result Instruction :=
  match c.instructions with
  | [] => .error .invalidInstructionData
  | ix :: _ => do
    let programId ← ofOption .panic c.accounts[ix.programIdIndex.toNat]?
    let accounts ← ix.accounts.mapM (decompileAccount c)
    pure ⟨programId, accounts, ix.data⟩

/-! ## Borsh layout -/

open Borsh

def pubkeyCodec : Codec Pubkey := bits 32

def compiledInstructionDataCodec : Codec CompiledInstructionData :=
  (u8.pair ((vec u8).pair (vec u8))).imap
    (fun d => (d.programIdIndex, d.accounts, d.data))
    (fun p => ⟨p.1, p.2.1, p.2.2⟩) (fun _ => rfl)

def compiledInstructionCodec : Codec CompiledInstructionV0 :=
  (u8.pair (u8.pair (u8.pair ((vec compiledInstructionDataCodec).pair (vec pubkeyCodec))))).imap
    (fun c => (c.numRoSigners, c.numRwSigners, c.numRw, c.instructions, c.accounts))
    (fun p => ⟨p.1, p.2.1, p.2.2.1, p.2.2.2.1, p.2.2.2.2⟩) (fun _ => rfl)

theorem pubkeyCodec_length (k : Pubkey) (bytes : List UInt8)
    (h : pubkeyCodec.enc k = some bytes) : bytes.length = 32 :=
  uint_enc_length h

/-- The key table alone takes thirty-two bytes for each distinct key. -/
theorem compiledInstructionCodec_length {c : CompiledInstructionV0} {bytes : List UInt8}
    (h : compiledInstructionCodec.enc c = some bytes) : 32 * c.accounts.length ≤ bytes.length := by
  obtain ⟨a, x, -, hx, rfl⟩ := Codec.pair_enc.mp h
  obtain ⟨b, y, -, hy, rfl⟩ := Codec.pair_enc.mp hx
  obtain ⟨d, z, -, hz, rfl⟩ := Codec.pair_enc.mp hy
  obtain ⟨e, keys, -, hk, rfl⟩ := Codec.pair_enc.mp hz
  have hlen := vec_enc_length pubkeyCodec_length hk
  simp only [List.length_append]
  dsimp only at hlen
  omega

end Antegen
