import Antegen.Executor
import Antegen.FiberRoundTrip

/-!
# The accounts an executor supplies

The program decompiles the stored instruction and replaces the placeholder among its
accounts. The executor appends the key table with the placeholder replaced in every
position. Both read the flags off the positions, so the program finds each account it
asks for, and no key becomes writable that the instruction does not write. A program id
that is the placeholder itself is replaced by the executor only.
-/
namespace Antegen.Client

open FiberProgram

/-- The key that the executor appends for a key of the table. -/
def atExecutor (executor k : Pubkey) : Pubkey := if k = payerPubkey then executor else k

/-- The appended accounts against the instruction that is stored, `decompiled`, and the one
that the program calls, `called`. -/
structure Supplied (executor : Pubkey) (decompiled called : Instruction)
    (appended : List AccountMeta) : Prop where
  programId : ∃ m ∈ appended, m.pubkey = atExecutor executor called.programId ∧
    m.isWritable = false
  accounts : ∀ a ∈ called.accounts, ∃ m ∈ appended, m.pubkey = a.pubkey ∧
    m.isWritable = a.isWritable
  requested : ∀ m ∈ appended, m.isWritable = true → ∃ a ∈ decompiled.accounts,
    a.isWritable = true ∧
      (a.pubkey = m.pubkey ∨ a.pubkey = payerPubkey ∧ m.pubkey = executor)

/-- The account that the executor appends for a key. -/
def appendedFor (executor : Pubkey) (stored : Instruction) (k : Pubkey) : AccountMeta :=
  ⟨atExecutor executor k, false, (unionFlags stored k).isWritable⟩

section Compiled

variable {o : HashOrder} {stored : Instruction} {c : CompiledInstructionV0}

/-- One account for each key of the table, in its order, with the flag the key has. -/
theorem addCompiledAccounts_compiled (x : ExecutorLogic) (hc : Compiled o stored c)
    (hlen : (keyTable o stored).length < 256) :
    x.addCompiledAccounts c =
      .ok ((keyTable o stored).map (appendedFor x.pubkey stored)) := by
  have hmap : (keyTable o stored).map (appendedFor x.pubkey stored) =
      (keyTable o stored).zipIdx.map fun p => appendedFor x.pubkey stored p.1 := by
    rw [← Function.comp_def (appendedFor x.pubkey stored), ← List.map_map, List.zipIdx_map_fst]
  rw [ExecutorLogic.addCompiledAccounts, hc.accounts, hmap]
  apply mapM_eq_ok_map
  rintro ⟨k, i⟩ hp
  have hget : (keyTable o stored)[i]? = some k := List.mem_zipIdx_iff_getElem?.mp hp
  obtain ⟨hi, rfl⟩ := List.getElem?_eq_some_iff.mp hget
  have hk : (keyTable o stored)[i] ∈ keyTable o stored := List.getElem_mem hi
  have hindex : UInt8.ofNat i = indexOf o stored (keyTable o stored)[i] := by
    rw [indexOf, (keyTable_nodup o stored).idxOf_getElem]
  have hw : decompileWritable c (indexOf o stored (keyTable o stored)[i]) =
      .ok (unionFlags stored (keyTable o stored)[i]).isWritable := by
    rw [decompileWritable_indexOf hc hlen hk, rank_eq stored ((mem_keyTable o stored _).mp hk)]
    exact congrArg (fun m => Except.ok m.isWritable)
      (flags_getPriority (unionFlags stored (keyTable o stored)[i]))
  dsimp only
  rw [hindex, hw]
  rfl

theorem atExecutor_of_ne {executor k : Pubkey} (h : k ≠ payerPubkey) :
    atExecutor executor k = k := if_neg h

/-- Only an executor that is the placeholder leaves the placeholder in place. -/
theorem eq_payer_of_atExecutor {executor k : Pubkey} (h : atExecutor executor k = payerPubkey) :
    executor = payerPubkey := by
  unfold atExecutor at h
  split_ifs at h with hk
  · exact h
  · exact absurd h hk

theorem recovered_account {executor : Pubkey} {a : AccountMeta}
    (ha : a ∈ (recovered stored executor).accounts) :
    ∃ b ∈ stored.accounts, a.pubkey = atExecutor executor b.pubkey ∧
      a.isWritable = (unionFlags stored b.pubkey).isWritable := by
  obtain ⟨b, hb, rfl⟩ := List.mem_map.mp ha
  refine ⟨b, hb, rfl, ?_⟩
  by_cases hp : b.pubkey = stored.programId <;> simp [unionFlags, hp]

theorem supplied_keyTable (executor : Pubkey) :
    Supplied executor (normalized stored) (recovered stored executor)
      ((keyTable o stored).map (appendedFor executor stored)) := by
  refine ⟨?_, ?_, ?_⟩
  · have hk : stored.programId ∈ keyTable o stored := (mem_keyTable o stored _).mpr (Or.inl rfl)
    exact ⟨_, List.mem_map_of_mem hk, rfl, by simp [appendedFor, unionFlags]⟩
  · intro a ha
    obtain ⟨b, hb, hkey, hflag⟩ := recovered_account ha
    have hk : b.pubkey ∈ keyTable o stored :=
      (mem_keyTable o stored _).mpr (Or.inr (List.mem_map_of_mem hb))
    exact ⟨_, List.mem_map_of_mem hk, hkey.symm, hflag.symm⟩
  · intro m hm hw
    obtain ⟨k, hk, rfl⟩ := List.mem_map.mp hm
    rcases (mem_keyTable o stored k).mp hk with rfl | hk
    · simp [appendedFor, unionFlags] at hw
    · obtain ⟨b, hb, rfl⟩ := List.mem_map.mp hk
      have hb' : unionFlags stored b.pubkey ∈ (normalized stored).accounts :=
        List.mem_map_of_mem hb
      refine ⟨_, hb', hw, ?_⟩
      rw [unionFlags_pubkey]
      by_cases hpayer : b.pubkey = payerPubkey
      · exact Or.inr ⟨hpayer, by simp [appendedFor, atExecutor, hpayer]⟩
      · exact Or.inl (atExecutor_of_ne hpayer).symm

end Compiled

/-- Among the appended accounts the program id is found, unless it is the placeholder. -/
theorem Supplied.programId_iff {executor : Pubkey} {decompiled called stored : Instruction}
    {keys : List Pubkey}
    (h : Supplied executor decompiled called (keys.map (appendedFor executor stored))) :
    (∃ m ∈ keys.map (appendedFor executor stored),
        m.pubkey = called.programId ∧ m.isWritable = false) ↔
      (called.programId = payerPubkey → executor = payerPubkey) := by
  constructor
  · rintro ⟨m, hm, hkey, -⟩ hpayer
    obtain ⟨k, -, rfl⟩ := List.mem_map.mp hm
    exact eq_payer_of_atExecutor (hkey.trans hpayer)
  · intro hex
    obtain ⟨m, hm, hkey, hw⟩ := h.programId
    refine ⟨m, hm, ?_, hw⟩
    rw [hkey, atExecutor]
    split_ifs with hpayer
    · rw [hpayer, hex hpayer]
    · rfl

/-! ## Stored instructions -/

section Stored

variable (x : ExecutorLogic) {f : Fiber} {o : HashOrder} {stored : Instruction}

theorem addCompiledAccounts_stored (hf : StoresCompiled f o stored) :
    ∃ c, compiledInstructionCodec.dec f.compiledInstruction = some (c, []) ∧
      x.addCompiledAccounts c = .ok ((keyTable o stored).map (appendedFor x.pubkey stored)) ∧
      decompileInstruction c = .ok (normalized stored) ∧
      f.getInstruction x.pubkey = .ok (recovered stored x.pubkey) := by
  obtain ⟨c, hc, henc, hlen⟩ := hf.compiled
  have hspec := compileInstruction_spec hc
  have hkeys : (keyTable o stored).length < 256 := by
    rw [← hspec.accounts]
    exact hlen
  have hdec := compiledInstructionCodec.dec_enc c _ [] henc
  rw [List.append_nil] at hdec
  exact ⟨c, hdec, addCompiledAccounts_compiled x hspec hkeys, decompile_compile hc hlen,
    decompileWithPayer_compiled hc henc hlen x.pubkey⟩

/-- The program finds the accounts it needs among those the executor appends, and no key
is writable that the instruction does not write, for every stored instruction and every
executor. The program id is found unless it is the placeholder, which stands for accounts. -/
theorem addCompiledAccounts_supplies (hf : StoresCompiled f o stored) :
    ∃ c appended decompiled called,
      compiledInstructionCodec.dec f.compiledInstruction = some (c, []) ∧
      x.addCompiledAccounts c = .ok appended ∧ decompileInstruction c = .ok decompiled ∧
      f.getInstruction x.pubkey = .ok called ∧ Supplied x.pubkey decompiled called appended ∧
      ((∃ m ∈ appended, m.pubkey = called.programId ∧ m.isWritable = false) ↔
        (called.programId = payerPubkey → x.pubkey = payerPubkey)) := by
  obtain ⟨c, hdec, happended, hdecompiled, hcalled⟩ := addCompiledAccounts_stored x hf
  have hsupplied : Supplied x.pubkey (normalized stored) (recovered stored x.pubkey)
      ((keyTable o stored).map (appendedFor x.pubkey stored)) := supplied_keyTable x.pubkey
  exact ⟨c, _, _, _, hdec, happended, hdecompiled, hcalled, hsupplied, hsupplied.programId_iff⟩

end Stored

/-- An executor whose node answers nothing. -/
def offlineExecutor (pubkey : Pubkey) : ExecutorLogic where
  pubkey := pubkey
  forgoExecutorCommission := false
  programId := threadProgram
  fiberAtIndex _ _ := 0
  getAccount _ := .error .rpc
  fetchThreadConfig := .error .rpc
  estimateTransactionSizeWithBudget _ := 0
  simulateTransaction _ _ := .error .rpc

def fiberWith (stored : Instruction) : Fiber :=
  .v1 ⟨currentFiberVersion, 1, (compileToBytes insertionOrder stored).toOption.getD [], 0, 0, 0,
    []⟩

/-- The placeholder signs and key 7 is written. For executor 7 the two entries coincide. -/
def coinciding : Instruction :=
  ⟨5, [⟨payerPubkey, true, false⟩, ⟨7, false, true⟩, ⟨5, true, true⟩], [1, 2]⟩

theorem fiberWith_coinciding : StoresCompiled (fiberWith coinciding) insertionOrder coinciding :=
  ⟨by decide +kernel, by decide +kernel⟩

theorem addCompiledAccounts_coinciding :
    ∃ called, (fiberWith coinciding).getInstruction 7 = .ok called ∧
      Supplied 7 (normalized coinciding) called
        [⟨7, false, false⟩, ⟨7, false, true⟩, ⟨5, false, false⟩] := by
  obtain ⟨c, appended, decompiled, called, hdec, happended, hdecompiled, hcalled, hs, -⟩ :=
    addCompiledAccounts_supplies (offlineExecutor 7) fiberWith_coinciding
  have hrun : ((compiledInstructionCodec.dec (fiberWith coinciding).compiledInstruction).map
      fun p => ((offlineExecutor 7).addCompiledAccounts p.1, decompileInstruction p.1)) =
      some (.ok [⟨7, false, false⟩, ⟨7, false, true⟩, ⟨5, false, false⟩],
        .ok (normalized coinciding)) := by
    decide +kernel
  rw [hdec, Option.map_some, happended, hdecompiled] at hrun
  obtain ⟨ha, hd⟩ := Prod.mk.inj (Option.some.inj hrun)
  obtain rfl := Except.ok.inj ha
  obtain rfl := Except.ok.inj hd
  exact ⟨called, hcalled, hs⟩

/-- The placeholder as the program to call. -/
def placeholderProgram : Instruction := ⟨payerPubkey, [⟨7, false, true⟩], []⟩

/-- It is stored, the program calls the placeholder, and executor 9 appends itself for it. -/
theorem placeholderProgram_missing :
    ∃ c appended called,
      StoresCompiled (fiberWith placeholderProgram) insertionOrder placeholderProgram ∧
      compiledInstructionCodec.dec (fiberWith placeholderProgram).compiledInstruction =
        some (c, []) ∧
      (offlineExecutor 9).addCompiledAccounts c = .ok appended ∧
      (fiberWith placeholderProgram).getInstruction 9 = .ok called ∧
      ¬ ∃ m ∈ appended, m.pubkey = called.programId := by
  refine ⟨⟨0, 0, 1, [⟨1, [0], []⟩], [7, payerPubkey]⟩, [⟨7, false, true⟩, ⟨9, false, false⟩],
    placeholderProgram, ⟨by decide +kernel, by decide +kernel⟩, ?_, ?_, ?_, ?_⟩
  · decide +kernel
  · decide +kernel
  · decide +kernel
  · decide +kernel

end Antegen.Client
