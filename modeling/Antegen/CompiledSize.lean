import Antegen.BorshSums
import Antegen.FiberRoundTrip

/-!
# The room that a stored instruction takes

The keys of a compiled instruction stand in the order in which a hash map was walked,
as far as their privileges leave it open. How many there are in each class does not
depend on it, so neither does whether the instruction compiles, nor the number of bytes
it takes in the account of a fiber.
-/
namespace Antegen

open Borsh

/-! ## Whether an instruction compiles -/

theorem countAccount_of_lt (m : MetaMap) (c : Counters) (k : Pubkey)
    (h0 : c.rwSigners.toNat + (if getPriority (metaOf m k) = 0 then 1 else 0) < 256)
    (h1 : c.roSigners.toNat + (if getPriority (metaOf m k) = 1 then 1 else 0) < 256)
    (h2 : c.rw.toNat + (if getPriority (metaOf m k) = 2 then 1 else 0) < 256) :
    ∃ d, countAccount m c k = .ok d ∧
      d.rwSigners.toNat = c.rwSigners.toNat + (if getPriority (metaOf m k) = 0 then 1 else 0) ∧
      d.roSigners.toNat = c.roSigners.toNat + (if getPriority (metaOf m k) = 1 then 1 else 0) ∧
      d.rw.toNat = c.rw.toNat + (if getPriority (metaOf m k) = 2 then 1 else 0) := by
  unfold countAccount
  unfold getPriority at h0 h1 h2 ⊢
  cases hs : (metaOf m k).isSigner <;> cases hw : (metaOf m k).isWritable <;>
    simp only [hs, hw] at h0 h1 h2 ⊢
  · exact ⟨c, rfl, by simp⟩
  · have hadd := addU8_of_lt (a := c.rw) (b := 1) (by simpa using h2)
    refine ⟨_, by rw [hadd]; rfl, by simp, by simp, ?_⟩
    simpa using addU8_eq_ok hadd
  · have hadd := addU8_of_lt (a := c.roSigners) (b := 1) (by simpa using h1)
    refine ⟨_, by rw [hadd]; rfl, by simp, ?_, by simp⟩
    simpa using addU8_eq_ok hadd
  · have hadd := addU8_of_lt (a := c.rwSigners) (b := 1) (by simpa using h0)
    refine ⟨_, by rw [hadd]; rfl, ?_, by simp, by simp⟩
    simpa using addU8_eq_ok hadd

theorem foldlM_countAccount_of_lt (m : MetaMap) (keys : List Pubkey) (c : Counters)
    (h0 : c.rwSigners.toNat + keys.countP (fun k => getPriority (metaOf m k) = 0) < 256)
    (h1 : c.roSigners.toNat + keys.countP (fun k => getPriority (metaOf m k) = 1) < 256)
    (h2 : c.rw.toNat + keys.countP (fun k => getPriority (metaOf m k) = 2) < 256) :
    ∃ c', keys.foldlM (countAccount m) c = .ok c' := by
  induction keys generalizing c with
  | nil => exact ⟨c, rfl⟩
  | cons k keys ih =>
    simp only [List.countP_cons, decide_eq_true_eq] at h0 h1 h2
    obtain ⟨d, hd, hd0, hd1, hd2⟩ := countAccount_of_lt m c k (by omega) (by omega) (by omega)
    obtain ⟨c', hc'⟩ := ih d (by omega) (by omega) (by omega)
    exact ⟨c', by rw [List.foldlM_cons, bind_eq_ok]; exact ⟨d, hd, hc'⟩⟩

/-- The distinct keys of an instruction, its program among them. -/
def keysOf (ix : Instruction) : List Pubkey := (pubkeysToMetadata ix).keys

/-- Each class of accounts can be counted in one byte. -/
def Countable (ix : Instruction) : Prop :=
  ∀ r < 3, (keysOf ix).countP (fun k => rank ix k = r) < 256

theorem compileInstruction_iff (o : HashOrder) (ix : Instruction) :
    (∃ c, compileInstruction o ix = .ok c) ↔ Countable ix := by
  have hperm : ∀ r, (keyTable o ix).countP (fun k => rank ix k = r) =
      (keysOf ix).countP (fun k => rank ix k = r) := fun r => (keyTable_perm o ix).countP_eq _
  constructor
  · rintro ⟨c, hc⟩ r hr
    simp only [compileInstruction, bind_eq_ok] at hc
    obtain ⟨counts, hcounts, -⟩ := hc
    obtain ⟨h0, h1, h2⟩ := foldlM_countAccount _ _ _ _ hcounts
    rw [← hperm r]
    have b0 := counts.rwSigners.toNat_lt
    have b1 := counts.roSigners.toNat_lt
    have b2 := counts.rw.toNat_lt
    simp only [UInt8.toNat_zero, Nat.zero_add] at h0 h1 h2
    change _ = (keyTable o ix).countP (fun k => rank ix k = 0) at h0
    change _ = (keyTable o ix).countP (fun k => rank ix k = 1) at h1
    change _ = (keyTable o ix).countP (fun k => rank ix k = 2) at h2
    interval_cases r <;> omega
  · intro h
    obtain ⟨counts, hcounts⟩ := foldlM_countAccount_of_lt (pubkeysToMetadata ix) (keyTable o ix)
      ⟨0, 0, 0⟩ (by rw [UInt8.toNat_zero, Nat.zero_add]; exact (hperm 0).trans_lt (h 0 (by omega)))
      (by rw [UInt8.toNat_zero, Nat.zero_add]; exact (hperm 1).trans_lt (h 1 (by omega)))
      (by rw [UInt8.toNat_zero, Nat.zero_add]; exact (hperm 2).trans_lt (h 2 (by omega)))
    have haccs : ix.accounts.mapM (fun acc => accountsToIndex (keyTable o ix) acc.pubkey) =
        .ok (ix.accounts.map fun a => indexOf o ix a.pubkey) :=
      mapM_eq_ok_map fun a ha =>
        accountsToIndex_keyTable o ix (Or.inr (List.mem_map_of_mem ha))
    simp only [compileInstruction, bind_eq_ok]
    exact ⟨_, counts, hcounts, _, accountsToIndex_keyTable o ix (Or.inl rfl), _, haccs, rfl⟩

/-! ## The bytes of a compiled instruction -/

/-- Bytes of the compiled instruction. -/
def compiledSize (ix : Instruction) : ℕ :=
  20 + ix.accounts.length + ix.data.length + 32 * (keysOf ix).length

/-- The instruction compiles and its parts can be counted in four bytes. -/
structure Compilable (ix : Instruction) : Prop where
  countable : Countable ix
  accounts : ix.accounts.length < 2 ^ 32
  data : ix.data.length < 2 ^ 32
  keys : (keysOf ix).length < 2 ^ 32

theorem compiledInstructionCodec_sized : Sized compiledInstructionCodec fun c =>
    11 + (c.instructions.map fun d => 9 + d.accounts.length + d.data.length).sum +
      32 * c.accounts.length := by
  intro c bytes h
  have hdata : Sized compiledInstructionDataCodec
      fun d => 9 + d.accounts.length + d.data.length := by
    intro d bytes h
    rw [(Sized.u8.pair ((Sized.vec Sized.u8).pair (Sized.vec Sized.u8))).imap _ _ _ d bytes h]
    dsimp only
    omega
  rw [(Sized.u8.pair (Sized.u8.pair (Sized.u8.pair ((Sized.vecSum hdata).pair
    (Sized.vec pubkeyCodec_length))))).imap _ _ _ c bytes h]
  dsimp only
  omega

theorem compiledInstructionCodec_domain : Domain compiledInstructionCodec fun c =>
    c.instructions.length < 2 ^ 32 ∧
      (∀ d ∈ c.instructions, d.accounts.length < 2 ^ 32 ∧ d.data.length < 2 ^ 32) ∧
      c.accounts.length < 2 ^ 32 := by
  intro c
  have hdata := (Domain.u8.pair ((Domain.vec Domain.u8).pair (Domain.vec Domain.u8))).imap
    (fun d : CompiledInstructionData => (d.programIdIndex, d.accounts, d.data))
    (fun p => ⟨p.1, p.2.1, p.2.2⟩) (fun _ => rfl)
  have hkeys : Domain pubkeyCodec fun _ => True := Domain.bits 32
  refine ((Domain.u8.pair (Domain.u8.pair (Domain.u8.pair ((Domain.vec hdata).pair
    (Domain.vec hkeys))))).imap _ _ _ c).trans ?_
  simp [and_assoc]

section Bytes

variable {o : HashOrder} {ix : Instruction} {c : CompiledInstructionV0}

theorem keyTable_length (o : HashOrder) (ix : Instruction) :
    (keyTable o ix).length = (keysOf ix).length := (keyTable_perm o ix).length_eq

theorem compileToBytes_length {bytes : List UInt8} (h : compileToBytes o ix = .ok bytes) :
    bytes.length = compiledSize ix := by
  simp only [compileToBytes, bind_eq_ok, ofOption_eq_ok] at h
  obtain ⟨c, hc, henc⟩ := h
  have hspec := compileInstruction_spec hc
  rw [compiledInstructionCodec_sized c bytes henc]
  simp only [hspec.instructions, hspec.accounts, keyTable_length, compiledSize, List.map_cons,
    List.map_nil, List.sum_cons, List.sum_nil, List.length_map]
  omega

theorem compileToBytes_iff (o : HashOrder) (ix : Instruction) :
    (∃ bytes, compileToBytes o ix = .ok bytes) ↔ Compilable ix := by
  have hdomain : ∀ c, compileInstruction o ix = .ok c →
      ((∃ bytes, compiledInstructionCodec.enc c = some bytes) ↔ ix.accounts.length < 2 ^ 32 ∧
        ix.data.length < 2 ^ 32 ∧ (keysOf ix).length < 2 ^ 32) := by
    intro c hc
    have hspec := compileInstruction_spec hc
    refine (compiledInstructionCodec_domain c).trans ?_
    simp [hspec.instructions, hspec.accounts, keyTable_length, and_assoc]
  simp only [compileToBytes, bind_eq_ok, ofOption_eq_ok]
  constructor
  · rintro ⟨bytes, c, hc, henc⟩
    obtain ⟨haccounts, hdata, hkeys⟩ := (hdomain c hc).mp ⟨bytes, henc⟩
    exact ⟨(compileInstruction_iff o ix).mp ⟨c, hc⟩, haccounts, hdata, hkeys⟩
  · rintro ⟨hcount, haccounts, hdata, hkeys⟩
    obtain ⟨c, hc⟩ := (compileInstruction_iff o ix).mpr hcount
    obtain ⟨bytes, henc⟩ := (hdomain c hc).mpr ⟨haccounts, hdata, hkeys⟩
    exact ⟨bytes, c, hc, henc⟩

end Bytes

/-! ## Fibers -/

namespace Fiber

/-- Bytes of a fiber, its discriminator included. -/
def size : Fiber → ℕ
  | legacy s => 68 + s.compiledInstruction.length
  | v1 s => 73 + s.compiledInstruction.length + 32 * s.lookupTables.length

/-- The numbers of a fiber have their widths. -/
def Encodable : Fiber → Prop
  | legacy s => s.compiledInstruction.length < 2 ^ 32 ∧ (-2 ^ 63 ≤ s.lastExecuted ∧
      s.lastExecuted < 2 ^ 63) ∧ s.execCount < 2 ^ 64 ∧ s.priorityFee < 2 ^ 64
  | v1 s => s.compiledInstruction.length < 2 ^ 32 ∧ (-2 ^ 63 ≤ s.lastExecuted ∧
      s.lastExecuted < 2 ^ 63) ∧ s.execCount < 2 ^ 64 ∧ s.priorityFee < 2 ^ 64 ∧
      s.lookupTables.length < 2 ^ 32

end Fiber

theorem pubkeyCodec_domain : Domain pubkeyCodec fun _ => True := Domain.bits 32

theorem FiberState.codec_sized : Sized FiberState.codec fun s =>
    60 + s.compiledInstruction.length := by
  intro s bytes h
  have hkey : Sized pubkeyCodec fun _ => 32 := pubkeyCodec_length
  rw [(hkey.pair ((Sized.vec Sized.u8).pair ((Sized.sint 8).pair ((Sized.uint 8).pair
    (Sized.uint 8))))).imap _ _ _ s bytes h]
  dsimp only
  omega

theorem FiberVersionedState.codec_sized : Sized FiberVersionedState.codec fun s =>
    65 + s.compiledInstruction.length + 32 * s.lookupTables.length := by
  intro s bytes h
  have hkey : Sized pubkeyCodec fun _ => 32 := pubkeyCodec_length
  rw [(Sized.u8.pair (hkey.pair ((Sized.vec Sized.u8).pair ((Sized.sint 8).pair
    ((Sized.uint 8).pair ((Sized.uint 8).pair (Sized.vec hkey))))))).imap _ _ _ s bytes h]
  dsimp only
  omega

theorem sint_range (z : ℤ) :
    (-(256 ^ 8 : ℤ) ≤ 2 * z ∧ 2 * z < (256 ^ 8 : ℤ)) ↔ -2 ^ 63 ≤ z ∧ z < 2 ^ 63 := by
  constructor <;> intro h <;> constructor <;> omega

theorem FiberState.codec_domain :
    Domain FiberState.codec fun s => (Fiber.legacy s).Encodable := by
  intro s
  refine ((pubkeyCodec_domain.pair ((Domain.vec Domain.u8).pair ((Domain.sint 8).pair
    ((Domain.uint 8).pair (Domain.uint 8))))).imap _ _ _ s).trans ?_
  simp only [Fiber.Encodable, sint_range]
  simp

theorem FiberVersionedState.codec_domain :
    Domain FiberVersionedState.codec fun s => (Fiber.v1 s).Encodable := by
  intro s
  refine ((Domain.u8.pair (pubkeyCodec_domain.pair ((Domain.vec Domain.u8).pair
    ((Domain.sint 8).pair ((Domain.uint 8).pair ((Domain.uint 8).pair
      (Domain.vec pubkeyCodec_domain))))))).imap _ _ _ s).trans ?_
  simp only [Fiber.Encodable, sint_range]
  simp

/-- A fiber is written if its numbers have their widths and there is room for it. -/
theorem Fiber.write_iff (data : List UInt8) (f : Fiber) :
    (∃ out, f.write data = .ok out) ↔ f.Encodable ∧ f.size ≤ data.length := by
  cases f with
  | legacy s =>
    have hdomain := FiberState.codec_domain s
    simp only [Fiber.write, FiberState.write, bind_eq_ok, ofOption_eq_ok]
    constructor
    · rintro ⟨out, bytes, henc, h⟩
      have hlen := FiberState.codec_sized s bytes henc
      have hroom := (overwrite_eq_ok h).1
      dsimp only at hlen
      exact ⟨hdomain.mp ⟨bytes, henc⟩, by rw [Fiber.size]; omega⟩
    · rintro ⟨hcan, hroom⟩
      obtain ⟨bytes, henc⟩ := hdomain.mpr hcan
      have hlen := FiberState.codec_sized s bytes henc
      dsimp only at hlen
      rw [Fiber.size] at hroom
      exact ⟨_, bytes, henc, if_pos (by omega)⟩
  | v1 s =>
    have hdomain := FiberVersionedState.codec_domain s
    simp only [Fiber.write, FiberVersionedState.write, bind_eq_ok, ofOption_eq_ok]
    constructor
    · rintro ⟨out, bytes, henc, h⟩
      have hlen := FiberVersionedState.codec_sized s bytes henc
      have hroom := (overwrite_eq_ok h).1
      dsimp only at hlen
      exact ⟨hdomain.mp ⟨bytes, henc⟩, by rw [Fiber.size]; omega⟩
    · rintro ⟨hcan, hroom⟩
      obtain ⟨bytes, henc⟩ := hdomain.mpr hcan
      have hlen := FiberVersionedState.codec_sized s bytes henc
      dsimp only at hlen
      rw [Fiber.size] at hroom
      exact ⟨_, bytes, henc, if_pos (by omega)⟩

namespace FiberProgram

theorem writeFiber_iff {w : Ledger} {k : Pubkey} {b : List UInt8} (hb : (w k).data = .bytes b)
    (howner : (w k).owner = fiberProgram) (f : Fiber) :
    (∃ w', writeFiber w k f = .ok w') ↔ f.Encodable ∧ f.size ≤ b.length := by
  rw [← Fiber.write_iff]
  constructor
  · rintro ⟨w', h⟩
    obtain ⟨b', out, hb', -, hout, -⟩ := writeFiber_eq_ok h
    rw [hb, AccountData.bytes.injEq] at hb'
    exact ⟨out, hb' ▸ hout⟩
  · rintro ⟨out, hout⟩
    have hwrite : ∃ w', w.writeData fiberProgram k (.bytes out) = .ok w' := by
      unfold Ledger.writeData
      split_ifs
      · exact ⟨_, rfl⟩
      · exact ⟨_, rfl⟩
    obtain ⟨w', hw'⟩ := hwrite
    exact ⟨w', by simp only [writeFiber, hb, bind_eq_ok]; exact ⟨out, hout, hw'⟩⟩

/-- Room that the instruction and the lookup tables of a fiber share. -/
def capacity : ℕ := 1152

/-- What fits an account has few keys, so it compiles. -/
theorem compilable_of_size {ix : Instruction} (h : compiledSize ix ≤ capacity) : Compilable ix := by
  unfold compiledSize capacity at h
  refine ⟨fun r _ => ?_, by omega, by omega, by omega⟩
  have hle := List.countP_le_length (p := fun k => decide (rank ix k = r)) (l := keysOf ix)
  omega

/-- The first state of a fiber can be written into an account of `n` bytes. -/
theorem v1_fits {thread : Pubkey} {compiled : List UInt8} {version : UInt8} {fee n : ℕ}
    {tables : List Pubkey} (hfee : fee < 2 ^ 64) (hn : n = space) :
    ((Fiber.v1 ⟨version, thread, compiled, 0, 0, fee, tables⟩).Encodable ∧
      (Fiber.v1 ⟨version, thread, compiled, 0, 0, fee, tables⟩).size ≤ n) ↔
      compiled.length + 32 * tables.length ≤ capacity := by
  have hspace : n = 1225 := hn
  simp only [Fiber.Encodable, Fiber.size, capacity]
  constructor
  · rintro ⟨-, hle⟩
    omega
  · intro hle
    exact ⟨⟨by omega, by omega, by omega, hfee, by omega⟩, by omega⟩

theorem exists_compiled_iff (o : HashOrder) (ix : Instruction) (n : ℕ) :
    (∃ compiled, compileToBytes o ix = .ok compiled ∧ compiled.length + n ≤ capacity) ↔
      compiledSize ix + n ≤ capacity := by
  constructor
  · rintro ⟨compiled, hcompiled, hle⟩
    rwa [compileToBytes_length hcompiled] at hle
  · intro hle
    obtain ⟨compiled, hcompiled⟩ :=
      (compileToBytes_iff o ix).mpr (compilable_of_size ((Nat.le_add_right _ _).trans hle))
    exact ⟨compiled, hcompiled, by rwa [compileToBytes_length hcompiled]⟩

/-- An empty account, at the derived address and paid for, takes an instruction if it leaves
room for the lookup tables, whatever order the hash map is walked in. -/
theorem create_fresh_iff {e : Env} {a : CreateArgs} {w : Ledger}
    (hempty : (w a.fiber).data.isEmpty = true) (howner : (w a.fiber).owner = systemProgram)
    (haddress : e.pubkey a.thread a.fiberIndex = a.fiber)
    (hrent : e.minimumBalance space ≤ (w a.fiber).lamports) (hfee : a.priorityFee < 2 ^ 64) :
    (∃ w', create e a w = .ok w') ↔ a.lookupTables.length ≤ maxLookupTablesPerFiber ∧
      compiledSize a.instruction + 32 * a.lookupTables.length ≤ capacity := by
  let allocated := w.setData a.fiber (.bytes (List.replicate space 0))
  let assigned := allocated.setOwner a.fiber fiberProgram
  have hallocate : w.allocate a.fiber space = .ok allocated := by
    simp [Ledger.allocate, hempty, howner, require, bind, Except.bind, pure, Except.pure, allocated]
  have hassign : allocated.assign a.fiber fiberProgram = .ok assigned := by
    have hne : ¬ (allocated a.fiber).owner = fiberProgram := by
      simp [allocated, howner, fiberProgram_ne_systemProgram.symm]
    have hsys : (allocated a.fiber).owner = systemProgram := by simp [allocated, howner]
    rw [Ledger.assign, if_neg hne, if_pos hsys]
  have hwrite : ∀ compiled, (∃ w', writeFiber assigned a.fiber (.v1 ⟨currentFiberVersion, a.thread,
      compiled, 0, 0, a.priorityFee, a.lookupTables⟩) = .ok w') ↔
      compiled.length + 32 * a.lookupTables.length ≤ capacity := by
    intro compiled
    rw [writeFiber_iff (b := List.replicate space 0) (by simp [assigned, allocated])
      (by simp [assigned])]
    exact v1_fits hfee (List.length_replicate)
  rw [← exists_compiled_iff a.order]
  simp only [create, hempty, if_true, initializeFiber, bind_eq_ok, require_eq_ok, exists_and_left,
    exists_const, hallocate, hassign, Except.ok.injEq, exists_eq_left', haddress, hrent, true_and]
  constructor
  · rintro ⟨htables, -, w', compiled, hcompiled, h⟩
    exact ⟨htables, compiled, hcompiled, (hwrite compiled).mp ⟨w', h⟩⟩
  · rintro ⟨htables, compiled, hcompiled, hle⟩
    obtain ⟨w', h⟩ := (hwrite compiled).mpr hle
    exact ⟨htables, htables, w', compiled, hcompiled, h⟩

/-- The empty, paid account at the address of fiber 0 takes a memo. -/
theorem create_fresh_sample :
    (∃ w', create sampleEnv (sampleCreate 1) sampleLedger = .ok w') ∧
      compiledSize (sampleMemo 1) = 86 := by
  refine ⟨(create_fresh_iff ?_ ?_ rfl ?_ ?_).mpr ⟨?_, ?_⟩, ?_⟩
  · decide +kernel
  · decide +kernel
  · decide +kernel
  · decide +kernel
  · decide +kernel
  · decide +kernel
  · decide +kernel

end FiberProgram
end Antegen

