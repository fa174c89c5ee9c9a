import Antegen.FiberIsolation

/-!
# Stored instructions come back

An instruction that `create` or `update` stores is read back by every executor up to
the flags the compiled form cannot keep apart. Fiber accounts have a fixed size
throughout every run, so a key table that fits has fewer than 256 entries and the
casts to `u8` are exact.
-/
namespace Antegen.FiberProgram

open Borsh Transition

/-- No live fiber account is larger than the program allocates. -/
def Sized (w : Ledger) : Prop :=
  ∀ k f b, fiberAt w k = some f → (w k).data = .bytes b → b.length ≤ space

section Size

variable {e : Env} {threads : Set Pubkey} {w w' : Ledger}

theorem Writes.sized {S k : Pubkey} {i : UInt8} (hw : Writes S k w w')
    (ho : Origin e S k i w w') (hs : Sized w) : Sized w' := by
  intro j f b hf hb
  by_cases hj : j = k
  · subst hj
    rcases ho with ho | ho
    · obtain ⟨b', hb', hlen⟩ := ho.size
      rw [hb', AccountData.bytes.injEq] at hb
      rw [← hb, hlen]
    · obtain ⟨b₀, b', hb₀, hb', hlen⟩ := ho.size
      obtain ⟨g, hg⟩ := ho.read
      have howner := (fiberAt_eq_some.mp hf).1
      rw [ho.owner] at howner
      rw [hb', AccountData.bytes.injEq] at hb
      rw [← hb, hlen]
      exact hs j g b₀ (fiberAt_eq_some.mpr ⟨howner, hg⟩) hb₀
  · rw [fiberAt, hw.frame j hj] at hf
    rw [hw.frame j hj] at hb
    exact hs j f b hf hb

theorem Sweeps.sized {S k : Pubkey} (hw : Sweeps S k w w') (hs : Sized w) : Sized w' := by
  intro j f b hf hb
  by_cases hj : j = k
  · subst hj
    exact absurd (fiberAt_eq_some.mp hf).2 (hw.unreadable f)
  · rw [fiberAt_congr (hw.owner j) (hw.data j hj)] at hf
    rw [hw.data j hj] at hb
    exact hs j f b hf hb

theorem exec_sized {ix : Ix} (h : exec e ix w = .ok w') (hs : Sized w) : Sized w' := by
  cases ix with
  | create a =>
    obtain ⟨hw, ho⟩ := create_eq_ok h
    exact hw.sized ho hs
  | update a =>
    obtain ⟨-, hw, ho⟩ := update_eq_ok h
    exact hw.sized ho hs
  | close a => exact (close_eq_ok h).2.sized hs
  | swap a =>
    obtain ⟨-, -, w1, -, -, -, -, hw, hre, hsw⟩ := swap_eq_ok h
    exact hsw.sized (hw.sized (e := e) (i := 0) (Or.inr hre) hs)

theorem step_sized {ev : Event} (h : Step e threads w ev w') (hs : Sized w) : Sized w' := by
  cases ev with
  | instruction ix => exact exec_sized h.2 hs
  | foreign =>
    intro k f b hf hb
    obtain ⟨howner, hread⟩ := fiberAt_eq_some.mp hf
    by_cases ho : (w k).owner = fiberProgram
    · obtain ⟨-, hdata, -⟩ := (h k).1 ho
      rw [hdata] at hread hb
      exact hs k f b (fiberAt_eq_some.mpr ⟨ho, hread⟩) hb
    · obtain ⟨n, hn⟩ := (h k).2 ho howner
      rw [hn] at hread
      exact absurd hread (readFiber_zeros n f)
  | endOfTransaction =>
    have hw : w' = w.collect := h
    subst hw
    intro k f b hf hb
    by_cases hl : (w k).lamports = 0
    · have hv : w.collect k = Account.vacant := by simp [Ledger.collect, hl]
      rw [fiberAt, hv, if_neg (by decide)] at hf
      exact absurd hf (by simp)
    · have hv : w.collect k = w k := by simp [Ledger.collect, hl]
      rw [fiberAt, hv] at hf
      rw [hv] at hb
      exact hs k f b hf hb

end Size

/-! ## What is stored -/

/-- The instruction stores `stored` in account `k`, iterating its keys in order `o`. -/
def Ix.Stores : Ix → Pubkey → HashOrder → Instruction → Prop
  | create a, k, o, stored => a.fiber = k ∧ a.order = o ∧ a.instruction = stored
  | update a, k, o, stored => a.fiber = k ∧ a.order = o ∧ a.instruction = some stored
  | close _, _, _, _ => False
  | swap _, _, _, _ => False

theorem u8_enc_length (a : UInt8) (bytes : List UInt8) (h : u8.enc a = some bytes) :
    bytes.length = 1 := by
  rw [← Option.some.inj h]
  rfl

/-- The compiled instruction is part of the state and fits where the state fits. -/
theorem compiledInstruction_length_le {data out : List UInt8} {f : Fiber}
    (h : f.write data = .ok out) : f.compiledInstruction.length ≤ data.length := by
  cases f with
  | legacy s =>
    simp only [Fiber.write, FiberState.write, bind_eq_ok, ofOption_eq_ok] at h
    obtain ⟨bytes, henc, h⟩ := h
    obtain ⟨hle, -⟩ := overwrite_eq_ok h
    obtain ⟨x, y, -, hy, rfl⟩ := Codec.pair_enc.mp henc
    obtain ⟨z, y, hz, -, rfl⟩ := Codec.pair_enc.mp hy
    have hlen := vec_enc_length u8_enc_length hz
    simp only [List.length_append] at hle
    simp only [Fiber.compiledInstruction]
    dsimp only at hlen
    omega
  | v1 s =>
    simp only [Fiber.write, FiberVersionedState.write, bind_eq_ok, ofOption_eq_ok] at h
    obtain ⟨bytes, henc, h⟩ := h
    obtain ⟨hle, -⟩ := overwrite_eq_ok h
    obtain ⟨x, y, -, hy, rfl⟩ := Codec.pair_enc.mp henc
    obtain ⟨x', y, -, hy', rfl⟩ := Codec.pair_enc.mp hy
    obtain ⟨z, y, hz, -, rfl⟩ := Codec.pair_enc.mp hy'
    have hlen := vec_enc_length u8_enc_length hz
    simp only [List.length_append] at hle
    simp only [Fiber.compiledInstruction]
    dsimp only at hlen
    omega

/-- The account holds a fiber with exactly these compiled bytes, and they fit. -/
def HoldsCompiled (w : Ledger) (k : Pubkey) (compiled : List UInt8) : Prop :=
  ∃ f b, (w k).data = .bytes b ∧ readFiber (w k).data = .ok f ∧
    f.compiledInstruction = compiled ∧ compiled.length ≤ b.length

theorem initializeFiber_holds {e : Env} {a : CreateArgs} {w w' : Ledger}
    (h : initializeFiber e a w = .ok w') :
    ∃ compiled, compileToBytes a.order a.instruction = .ok compiled ∧
      HoldsCompiled w' a.fiber compiled := by
  obtain ⟨-, -, -, compiled, out, f, hc, hf, -, hout, rfl⟩ := initializeFiber_eq_ok h
  have hread : readFiber (.bytes out) = .ok f := Fiber.tryDeserialize_write hout
  have hle := compiledInstruction_length_le hout
  have hlen := Fiber.write_length hout
  refine ⟨compiled, hc, f, out, by simp, by simpa using hread, hf, ?_⟩
  rw [← hf, hlen]
  exact hle

theorem writeFiber_holds {w w' : Ledger} {k : Pubkey} {f : Fiber}
    (h : writeFiber w k f = .ok w') : HoldsCompiled w' k f.compiledInstruction := by
  obtain ⟨b, out, -, rfl, hout, -⟩ := writeFiber_eq_ok h
  have hread : readFiber (.bytes out) = .ok f := Fiber.tryDeserialize_write hout
  refine ⟨f, out, by simp, by simpa using hread, rfl, ?_⟩
  rw [Fiber.write_length hout]
  exact compiledInstruction_length_le hout

theorem recreated_compiledInstruction {a : CreateArgs} {compiled : List UInt8} {f f' : Fiber}
    (h : recreated a compiled f = .ok f') : f'.compiledInstruction = compiled := by
  cases f with
  | legacy s =>
    simp only [recreated, bind_eq_ok, pure_eq_ok] at h
    obtain ⟨-, -, rfl⟩ := h
    rfl
  | v1 s =>
    rw [← pure_eq_ok.mp h]
    rfl

theorem updated_compiledInstruction {a : UpdateArgs} {stored : Instruction} {f f' : Fiber}
    (hix : a.instruction = some stored) (h : updated a f = .ok f') :
    compileToBytes a.order stored = .ok f'.compiledInstruction := by
  cases f with
  | legacy s =>
    simp only [updated, hix, applyInstructionUpdate, bind_eq_ok, pure_eq_ok] at h
    obtain ⟨-, -, compiled, hc, rfl⟩ := h
    exact hc
  | v1 s =>
    simp only [updated, hix, applyInstructionUpdate, bind_eq_ok, pure_eq_ok] at h
    obtain ⟨compiled, hc, rfl⟩ := h
    exact hc

theorem create_holds {e : Env} {a : CreateArgs} {w w' : Ledger} (h : create e a w = .ok w') :
    ∃ compiled, compileToBytes a.order a.instruction = .ok compiled ∧
      HoldsCompiled w' a.fiber compiled := by
  simp only [create, bind_eq_ok, require_eq_ok, exists_and_left, exists_const] at h
  obtain ⟨-, h⟩ := h
  split at h
  · exact initializeFiber_holds h
  · simp only [bind_eq_ok] at h
    obtain ⟨compiled, hc, f, -, f', hf', h⟩ := h
    refine ⟨compiled, hc, ?_⟩
    rw [← recreated_compiledInstruction hf']
    exact writeFiber_holds h

theorem update_holds {e : Env} {a : UpdateArgs} {stored : Instruction} {w w' : Ledger}
    (hix : a.instruction = some stored) (h : update e a w = .ok w') :
    ∃ compiled, compileToBytes a.order stored = .ok compiled ∧
      HoldsCompiled w' a.fiber compiled := by
  simp only [update, bind_eq_ok, require_eq_ok, exists_and_left, exists_const] at h
  obtain ⟨-, -, h⟩ := h
  split at h
  · rw [hix] at h
    have hinit := initializeFiber_holds h
    dsimp only at hinit
    exact hinit
  · simp only [bind_eq_ok] at h
    obtain ⟨f, -, f', hf', h⟩ := h
    exact ⟨_, updated_compiledInstruction hix hf', writeFiber_holds h⟩

theorem exec_holds {e : Env} {ix : Ix} {w w' : Ledger} {k : Pubkey} {o : HashOrder}
    {stored : Instruction} (h : exec e ix w = .ok w') (hs : ix.Stores k o stored) :
    ∃ compiled, compileToBytes o stored = .ok compiled ∧ HoldsCompiled w' k compiled := by
  cases ix with
  | create a =>
    obtain ⟨rfl, rfl, rfl⟩ := hs
    exact create_holds h
  | update a =>
    obtain ⟨rfl, rfl, hix⟩ := hs
    exact update_holds hix h
  | close a => exact hs.elim
  | swap a => exact hs.elim

/-! ## Reading it back -/

/-- What an executor gets: keys in order with repetitions, the placeholder replaced,
and for each key the flags of all its occurrences, none for the program id. -/
def recovered (stored : Instruction) (executor : Pubkey) : Instruction where
  programId := stored.programId
  accounts := stored.accounts.map fun a =>
    { pubkey := if a.pubkey = payerPubkey then executor else a.pubkey
      isSigner := a.pubkey ≠ stored.programId &&
        stored.accounts.any fun b => b.pubkey = a.pubkey && b.isSigner
      isWritable := a.pubkey ≠ stored.programId &&
        stored.accounts.any fun b => b.pubkey = a.pubkey && b.isWritable }
  data := stored.data

theorem decompileWithPayer_compiled {o : HashOrder} {stored : Instruction}
    {c : CompiledInstructionV0} {compiled : List UInt8} (hc : compileInstruction o stored = .ok c)
    (henc : compiledInstructionCodec.enc c = some compiled) (hlen : c.accounts.length < 256)
    (executor : Pubkey) :
    decompileWithPayer compiled executor = .ok (recovered stored executor) := by
  simp only [decompileWithPayer, bind_eq_ok, ofOption_eq_ok, pure_eq_ok]
  refine ⟨c, Codec.fromSlice_enc _ henc, normalized stored, decompile_compile hc hlen, ?_⟩
  simp only [normalized, recovered, List.map_map, Instruction.mk.injEq, true_and, and_true]
  apply List.map_congr_left
  intro a _
  by_cases hp : a.pubkey = stored.programId <;> by_cases hx : a.pubkey = payerPubkey <;>
    simp_all [unionFlags]

/-- The fiber holds the compiled form of an instruction, and it fits a fiber account. -/
structure StoresCompiled (f : Fiber) (o : HashOrder) (stored : Instruction) : Prop where
  bytes : compileToBytes o stored = .ok f.compiledInstruction
  fits : f.compiledInstruction.length ≤ space

/-- What is compiled fits only if all table positions are below 256. -/
theorem StoresCompiled.compiled {f : Fiber} {o : HashOrder} {stored : Instruction}
    (h : StoresCompiled f o stored) :
    ∃ c, compileInstruction o stored = .ok c ∧
      compiledInstructionCodec.enc c = some f.compiledInstruction ∧ c.accounts.length < 256 := by
  have hbytes := h.bytes
  simp only [compileToBytes, bind_eq_ok, ofOption_eq_ok] at hbytes
  obtain ⟨c, hc, henc⟩ := hbytes
  have hkeys := compiledInstructionCodec_length henc
  have hspace : f.compiledInstruction.length ≤ 1225 := h.fits
  exact ⟨c, hc, henc, by omega⟩

/-- In every run, what `create` and `update` store is compiled and fits. -/
theorem storesCompiled {e : Env} {threads : Set Pubkey} {w₀ w w' : Ledger}
    {events : List Event} (h₀ : Sized w₀) (hrun : Run (Step e threads) w₀ events w)
    {ix : Ix} {k : Pubkey} {o : HashOrder} {stored : Instruction} (hs : ix.Stores k o stored)
    (hexec : exec e ix w = .ok w') (howner : (w' k).owner = fiberProgram) :
    ∃ f, fiberAt w' k = some f ∧ StoresCompiled f o stored := by
  have hsized : Sized w' :=
    exec_sized hexec (hrun.invariant (fun _ _ _ hI hstep => step_sized hstep hI) h₀)
  obtain ⟨compiled, hbytes, f, b, hb, hread, hf, hle⟩ := exec_holds hexec hs
  have hlive : fiberAt w' k = some f := fiberAt_eq_some.mpr ⟨howner, hread⟩
  refine ⟨f, hlive, by rw [hf]; exact hbytes, ?_⟩
  rw [hf]
  exact hle.trans (hsized k f b hlive hb)

/-- Round trip through an account. From every ledger a run of the fiber program
reaches, an instruction that `create` or `update` stores in a fiber account comes
back as `recovered`, for every iteration order of the hash map and every executor.
All table positions and the sum of the counters are below 256. -/
theorem getInstruction_stored {e : Env} {threads : Set Pubkey} {w₀ w w' : Ledger}
    {events : List Event} (h₀ : Sized w₀) (hrun : Run (Step e threads) w₀ events w)
    {ix : Ix} {k : Pubkey} {o : HashOrder} {stored : Instruction} (hs : ix.Stores k o stored)
    (hexec : exec e ix w = .ok w') (howner : (w' k).owner = fiberProgram) (executor : Pubkey) :
    ∃ f c, fiberAt w' k = some f ∧ f.getInstruction executor = .ok (recovered stored executor) ∧
      compileInstruction o stored = .ok c ∧
      compiledInstructionCodec.enc c = some f.compiledInstruction ∧
      c.accounts.length < 256 ∧
      c.numRwSigners.toNat + c.numRoSigners.toNat + c.numRw.toNat ≤ c.accounts.length := by
  obtain ⟨f, hlive, hf⟩ := storesCompiled h₀ hrun hs hexec howner
  obtain ⟨c, hc, henc, hlen⟩ := hf.compiled
  refine ⟨f, c, hlive, decompileWithPayer_compiled hc henc hlen executor, hc, henc, hlen, ?_⟩
  have hspec := compileInstruction_spec hc
  rw [hspec.writables, hspec.accounts]
  exact SortedRank.below_le_length _ _ _

/-- The placeholder twice with different flags, a key twice, and the program id as
the sentinel of an absent optional account. -/
def sampleStored : Instruction where
  programId := 5
  accounts := [⟨payerPubkey, true, false⟩, ⟨7, false, true⟩, ⟨7, false, false⟩,
    ⟨5, true, true⟩, ⟨payerPubkey, false, true⟩]
  data := [1, 2]

def sampleStore : Ix :=
  .create ⟨1, sampleEnv.pubkey 1 0, 0, sampleStored, 0, [], insertionOrder⟩

set_option maxRecDepth 20000 in
theorem getInstruction_sampleStored :
    ∃ w' f, exec sampleEnv sampleStore sampleLedger = .ok w' ∧
      fiberAt w' (sampleEnv.pubkey 1 0) = some f ∧
      f.getInstruction 9 = .ok ⟨5, [⟨9, true, true⟩, ⟨7, false, true⟩, ⟨7, false, true⟩,
        ⟨5, false, false⟩, ⟨9, true, true⟩], [1, 2]⟩ := by
  have hrun : (exec sampleEnv sampleStore sampleLedger).map
      (fun w => (w (sampleEnv.pubkey 1 0)).owner) = .ok fiberProgram := by
    decide +kernel
  obtain ⟨w', hw', howner⟩ := map_eq_ok.mp hrun
  have hsized : Sized sampleLedger := by
    intro k f b hf
    rw [sampleLedger_no_fiber] at hf
    exact absurd hf (by simp)
  have hstores : sampleStore.Stores (sampleEnv.pubkey 1 0) insertionOrder sampleStored :=
    ⟨rfl, rfl, rfl⟩
  have hstart : Run (Step sampleEnv sampleThreads) sampleLedger [] sampleLedger := .nil _
  obtain ⟨f, -, hf, hget, -⟩ := getInstruction_stored hsized hstart hstores hw' howner 9
  refine ⟨w', f, hw', hf, ?_⟩
  rw [hget]
  rfl

end Antegen.FiberProgram
