import Antegen.Instruction

/-!
# Compilation followed by decompilation

The flags of an account survive compilation exactly as far as the compiled form
can express them: each key carries the union of the flags of its occurrences, and
the program id none. The table is sorted by privilege class, so the counters
delimit the classes and the position of an index recovers the flags of its key.
-/
namespace Antegen

/-- The flags that all occurrences of a key have together. -/
def unionFlags (ix : Instruction) (k : Pubkey) : AccountMeta :=
  if k = ix.programId then ⟨k, false, false⟩
  else ⟨k, ix.accounts.any fun a => a.pubkey = k && a.isSigner,
    ix.accounts.any fun a => a.pubkey = k && a.isWritable⟩

@[simp] theorem unionFlags_pubkey (ix : Instruction) (k : Pubkey) :
    (unionFlags ix k).pubkey = k := by
  unfold unionFlags
  split <;> rfl

/-- What a stored instruction decompiles to. -/
def normalized (ix : Instruction) : Instruction :=
  { ix with accounts := ix.accounts.map fun a => unionFlags ix a.pubkey }

/-- Flags that a run of the account loop adds to an entry. -/
def absorb (programId k : Pubkey) (entry : AccountMeta) (accs : List AccountMeta) : AccountMeta :=
  if k = programId then entry
  else { entry with
    isSigner := entry.isSigner || accs.any fun a => a.pubkey = k && a.isSigner
    isWritable := entry.isWritable || accs.any fun a => a.pubkey = k && a.isWritable }

theorem absorb_nil (programId k : Pubkey) (entry : AccountMeta) :
    absorb programId k entry [] = entry := by
  simp [absorb]

/-- The loop adds to an entry only from the accounts with its own key. -/
theorem absorb_cons_of_ne (programId : Pubkey) {k : Pubkey} (entry : AccountMeta)
    {a : AccountMeta} (accs : List AccountMeta) (h : a.pubkey ≠ k) :
    absorb programId k entry (a :: accs) = absorb programId k entry accs := by
  simp [absorb, h]

theorem absorb_cons_self (programId : Pubkey) (entry a : AccountMeta) (accs : List AccountMeta) :
    absorb programId a.pubkey entry (a :: accs) =
      absorb programId a.pubkey
        (if a.pubkey ≠ programId then
          { entry with
            isSigner := entry.isSigner || a.isSigner
            isWritable := entry.isWritable || a.isWritable }
        else entry) accs := by
  by_cases h : a.pubkey = programId
  · simp [absorb, h]
  · simp [absorb, h, Bool.or_assoc]

theorem lookup_foldl_mergeAccount (programId : Pubkey) (accs : List AccountMeta) (m : MetaMap)
    (k : Pubkey) :
    (accs.foldl (mergeAccount programId) m).lookup k =
      match m.lookup k with
      | some entry => some (absorb programId k entry accs)
      | none =>
        if k ∈ accs.map AccountMeta.pubkey then
          some (absorb programId k ⟨k, false, false⟩ accs) else none := by
  induction accs generalizing m with
  | nil => cases h : m.lookup k <;> simp [absorb_nil, h]
  | cons a accs ih =>
    rw [List.foldl_cons, ih]
    by_cases h : a.pubkey = k
    · subst h
      have hl : (mergeAccount programId m a).lookup a.pubkey =
          some (if a.pubkey ≠ programId then
            { (m.lookup a.pubkey).getD ⟨a.pubkey, false, false⟩ with
              isSigner := ((m.lookup a.pubkey).getD ⟨a.pubkey, false, false⟩).isSigner || a.isSigner
              isWritable :=
                ((m.lookup a.pubkey).getD ⟨a.pubkey, false, false⟩).isWritable || a.isWritable }
            else (m.lookup a.pubkey).getD ⟨a.pubkey, false, false⟩) := by
        simp only [mergeAccount, AList.lookup_insert]
      rw [hl]
      cases m.lookup a.pubkey with
      | none => simp [absorb_cons_self]
      | some entry => simp [absorb_cons_self]
    · have hl : (mergeAccount programId m a).lookup k = m.lookup k := by
        simp only [mergeAccount]
        exact AList.lookup_insert_ne (Ne.symm h)
      rw [hl]
      cases m.lookup k with
      | none => simp [absorb_cons_of_ne programId _ accs h, Ne.symm h]
      | some entry => simp [absorb_cons_of_ne programId _ accs h]

/-- Every key of the instruction is in the map, with the union of its flags. -/
theorem lookup_pubkeysToMetadata (ix : Instruction) (k : Pubkey) :
    (pubkeysToMetadata ix).lookup k =
      if k = ix.programId ∨ k ∈ ix.accounts.map AccountMeta.pubkey then
        some (unionFlags ix k) else none := by
  rw [pubkeysToMetadata, lookup_foldl_mergeAccount]
  by_cases h : k = ix.programId
  · subst h
    rw [AList.lookup_insert]
    simp [absorb, unionFlags]
  · rw [AList.lookup_insert_ne h]
    simp [absorb, unionFlags, h]

theorem metaOf_pubkeysToMetadata (ix : Instruction) {k : Pubkey}
    (hk : k = ix.programId ∨ k ∈ ix.accounts.map AccountMeta.pubkey) :
    metaOf (pubkeysToMetadata ix) k = unionFlags ix k := by
  simp only [metaOf, lookup_pubkeysToMetadata, if_pos hk, Option.getD_some]

section Table

variable (o : HashOrder) (ix : Instruction)

/-- The key table of the compiled form. -/
def keyTable : List Pubkey := sortedAccounts o (pubkeysToMetadata ix)

theorem keyTable_perm : (keyTable o ix).Perm (pubkeysToMetadata ix).keys :=
  (List.perm_insertionSort _ _).trans (o.perm _)

theorem keyTable_nodup : (keyTable o ix).Nodup :=
  (keyTable_perm o ix).nodup_iff.mpr (AList.keys_nodup _)

theorem mem_keyTable (k : Pubkey) :
    k ∈ keyTable o ix ↔ k = ix.programId ∨ k ∈ ix.accounts.map AccountMeta.pubkey := by
  rw [(keyTable_perm o ix).mem_iff, ← AList.mem_keys, ← AList.lookup_isSome,
    lookup_pubkeysToMetadata]
  split_ifs with h
  · simpa using h
  · simpa using h

/-- Privilege class of a key of the table. -/
def rank (k : Pubkey) : ℕ := getPriority (metaOf (pubkeysToMetadata ix) k)

theorem keyTable_sorted : (keyTable o ix).Pairwise (fun a b => rank ix a ≤ rank ix b) := by
  let r := fun a b => rank ix a ≤ rank ix b
  have htotal : Std.Total r := ⟨fun a b => Nat.le_total _ _⟩
  have htrans : IsTrans Pubkey r := ⟨fun a b c => Nat.le_trans⟩
  exact List.pairwise_insertionSort r _

end Table

theorem rank_eq (ix : Instruction) {k : Pubkey}
    (hk : k = ix.programId ∨ k ∈ ix.accounts.map AccountMeta.pubkey) :
    rank ix k = getPriority (unionFlags ix k) := by
  rw [rank, metaOf_pubkeysToMetadata ix hk]

/-- The privilege class of an entry determines its flags. -/
theorem flags_getPriority (m : AccountMeta) :
    (⟨m.pubkey, decide (getPriority m < 2), decide (getPriority m < 1) ||
      decide (getPriority m = 2)⟩ : AccountMeta) = m := by
  obtain ⟨k, s, w⟩ := m
  cases s <;> cases w <;> simp [getPriority]

/-! ## Counters -/

theorem addU8_eq_ok {a b c : UInt8} (h : addU8 a b = .ok c) : c.toNat = a.toNat + b.toNat := by
  unfold addU8 at h
  split at h
  · rw [← Except.ok.inj h, UInt8.toNat_add]
    omega
  · exact absurd h (by simp)

theorem addU8_of_lt {a b : UInt8} (h : a.toNat + b.toNat < 256) : addU8 a b = .ok (a + b) := by
  rw [addU8, if_pos h]

/-- The counting loop counts each class, whenever it does not overflow. -/
theorem foldlM_countAccount (m : MetaMap) (keys : List Pubkey) (c c' : Counters)
    (h : keys.foldlM (countAccount m) c = .ok c') :
    c'.rwSigners.toNat =
        c.rwSigners.toNat + keys.countP (fun k => getPriority (metaOf m k) = 0) ∧
      c'.roSigners.toNat =
        c.roSigners.toNat + keys.countP (fun k => getPriority (metaOf m k) = 1) ∧
      c'.rw.toNat = c.rw.toNat + keys.countP (fun k => getPriority (metaOf m k) = 2) := by
  induction keys generalizing c with
  | nil =>
    have hc : c = c' := by simpa using h
    simp [hc]
  | cons k keys ih =>
    simp only [List.foldlM_cons, bind_eq_ok] at h
    obtain ⟨d, hd, h⟩ := h
    obtain ⟨h0, h1, h2⟩ := ih d h
    rw [h0, h1, h2]
    simp only [List.countP_cons]
    unfold countAccount at hd
    cases hs : (metaOf m k).isSigner <;> cases hw : (metaOf m k).isWritable <;>
      simp only [hs, hw, map_eq_ok] at hd
    · rw [← Except.ok.inj hd]
      simp [getPriority, hs, hw]
    all_goals
      obtain ⟨n, hn, rfl⟩ := hd
      have := addU8_eq_ok hn
      simp only [UInt8.toNat_one] at this
      simp [getPriority, hs, hw]
      omega

/-! ## Round trip -/

open SortedRank

/-- Position of a key in the table, as the compiled form stores it. -/
def indexOf (o : HashOrder) (ix : Instruction) (k : Pubkey) : UInt8 :=
  UInt8.ofNat ((keyTable o ix).idxOf k)

theorem accountsToIndex_keyTable (o : HashOrder) (ix : Instruction) {k : Pubkey}
    (hk : k = ix.programId ∨ k ∈ ix.accounts.map AccountMeta.pubkey) :
    accountsToIndex (keyTable o ix) k = .ok (indexOf o ix k) := by
  rw [accountsToIndex, if_pos ((mem_keyTable o ix k).mpr hk), indexOf]

/-- The compiled form: its table, its counters as class boundaries, its indices. -/
structure Compiled (o : HashOrder) (ix : Instruction) (c : CompiledInstructionV0) : Prop where
  accounts : c.accounts = keyTable o ix
  rwSigners : c.numRwSigners.toNat = below (rank ix) 1 (keyTable o ix)
  signers : c.numRwSigners.toNat + c.numRoSigners.toNat = below (rank ix) 2 (keyTable o ix)
  writables : c.numRwSigners.toNat + c.numRoSigners.toNat + c.numRw.toNat =
    below (rank ix) 3 (keyTable o ix)
  instructions : c.instructions = [⟨indexOf o ix ix.programId,
    ix.accounts.map fun a => indexOf o ix a.pubkey, ix.data⟩]

theorem compileInstruction_spec {o : HashOrder} {ix : Instruction} {c : CompiledInstructionV0}
    (h : compileInstruction o ix = .ok c) : Compiled o ix c := by
  have haccs : ix.accounts.mapM (fun acc => accountsToIndex (keyTable o ix) acc.pubkey) =
      .ok (ix.accounts.map fun a => indexOf o ix a.pubkey) := by
    apply mapM_eq_ok_map
    intro a ha
    exact accountsToIndex_keyTable o ix (Or.inr (List.mem_map_of_mem ha))
  simp only [compileInstruction, bind_eq_ok, pure_eq_ok] at h
  obtain ⟨counts, hcounts, p, hp, accs, ha, rfl⟩ := h
  change accountsToIndex (keyTable o ix) ix.programId = .ok p at hp
  rw [accountsToIndex_keyTable o ix (Or.inl rfl)] at hp
  change ix.accounts.mapM (fun acc => accountsToIndex (keyTable o ix) acc.pubkey) = .ok accs at ha
  rw [haccs] at ha
  obtain ⟨h0, h1, h2⟩ := foldlM_countAccount _ _ _ _ hcounts
  change counts.rwSigners.toNat = 0 + (keyTable o ix).countP (fun k => rank ix k = 0) at h0
  change counts.roSigners.toNat = 0 + (keyTable o ix).countP (fun k => rank ix k = 1) at h1
  change counts.rw.toNat = 0 + (keyTable o ix).countP (fun k => rank ix k = 2) at h2
  have hb0 : below (rank ix) 0 (keyTable o ix) = 0 := by simp [below]
  have hb1 := below_succ (rank ix) 0 (keyTable o ix)
  have hb2 := below_succ (rank ix) 1 (keyTable o ix)
  have hb3 := below_succ (rank ix) 2 (keyTable o ix)
  norm_num only at hb1 hb2 hb3
  refine ⟨rfl, ?_, ?_, ?_, ?_⟩
  · dsimp only
    omega
  · dsimp only
    omega
  · dsimp only
    omega
  · rw [← Except.ok.inj hp, ← Except.ok.inj ha]

section Decompile

variable {o : HashOrder} {ix : Instruction} {c : CompiledInstructionV0}

theorem indexOf_toNat (hlen : (keyTable o ix).length < 256) {k : Pubkey}
    (hk : k ∈ keyTable o ix) : (indexOf o ix k).toNat = (keyTable o ix).idxOf k := by
  have hlt := List.idxOf_lt_length_iff.mpr hk
  rw [indexOf, UInt8.toNat_ofNat']
  omega

theorem indexOf_lt_below_iff (hlen : (keyTable o ix).length < 256) {k : Pubkey}
    (hk : k ∈ keyTable o ix) (r : ℕ) :
    (indexOf o ix k).toNat < below (rank ix) r (keyTable o ix) ↔ rank ix k < r := by
  have hlt := List.idxOf_lt_length_iff.mpr hk
  rw [indexOf_toNat hlen hk, lt_below_iff _ _ _ (keyTable_sorted o ix) _ hlt,
    List.getElem_idxOf]

/-- The counters are class boundaries and their sums do not overflow. -/
theorem addU8_signers (hc : Compiled o ix c) (hlen : (keyTable o ix).length < 256) :
    addU8 c.numRwSigners c.numRoSigners = .ok (c.numRwSigners + c.numRoSigners) := by
  have hle := below_le_length (rank ix) 2 (keyTable o ix)
  apply addU8_of_lt
  have := hc.signers
  omega

theorem lt_signers_iff (hc : Compiled o ix c) (hlen : (keyTable o ix).length < 256)
    {k : Pubkey} (hk : k ∈ keyTable o ix) :
    indexOf o ix k < c.numRwSigners + c.numRoSigners ↔ rank ix k < 2 := by
  rw [UInt8.lt_iff_toNat_lt, addU8_eq_ok (addU8_signers hc hlen), hc.signers,
    indexOf_lt_below_iff hlen hk]

/-- Reading the write flag of a key off the counters gives its privilege class. -/
theorem decompileWritable_indexOf (hc : Compiled o ix c) (hlen : (keyTable o ix).length < 256)
    {k : Pubkey} (hk : k ∈ keyTable o ix) :
    decompileWritable c (indexOf o ix k) =
      .ok (decide (rank ix k < 1) || decide (rank ix k = 2)) := by
  have hle := below_le_length (rank ix) 3 (keyTable o ix)
  have hsigners := addU8_signers hc hlen
  have hsum := addU8_eq_ok hsigners
  have hwritables : addU8 (c.numRwSigners + c.numRoSigners) c.numRw =
      .ok (c.numRwSigners + c.numRoSigners + c.numRw) := by
    apply addU8_of_lt
    have := hc.writables
    omega
  have hsum' := addU8_eq_ok hwritables
  have h1 : indexOf o ix k < c.numRwSigners ↔ rank ix k < 1 := by
    rw [UInt8.lt_iff_toNat_lt, hc.rwSigners, indexOf_lt_below_iff hlen hk]
  have h2 := lt_signers_iff hc hlen hk
  have h3 : indexOf o ix k < c.numRwSigners + c.numRoSigners + c.numRw ↔ rank ix k < 3 := by
    rw [UInt8.lt_iff_toNat_lt, hsum', hsum, hc.writables, indexOf_lt_below_iff hlen hk]
  unfold decompileWritable
  rw [hsigners]
  by_cases hr1 : rank ix k < 1
  · simp [h1, hr1, pure, Except.pure]
  · by_cases hr2 : rank ix k < 2
    · have hne : rank ix k ≠ 2 := by omega
      simp [h1, hr1, h2, hr2, hne, bind, Except.bind, pure, Except.pure]
    · have hiff : rank ix k < 3 ↔ rank ix k = 2 := by omega
      simp [h1, hr1, h2, hr2, h3, hiff, hwritables, bind, Except.bind, pure, Except.pure]

theorem decompileAccount_indexOf (hc : Compiled o ix c) (hlen : (keyTable o ix).length < 256)
    {k : Pubkey} (hk : k ∈ keyTable o ix) :
    decompileAccount c (indexOf o ix k) =
      .ok ⟨k, decide (rank ix k < 2), decide (rank ix k < 1) || decide (rank ix k = 2)⟩ := by
  have hget : c.accounts[(indexOf o ix k).toNat]? = some k := by
    rw [hc.accounts, indexOf_toNat hlen hk, List.getElem?_idxOf hk]
  simp [decompileAccount, hget, decompileWritable_indexOf hc hlen hk, addU8_signers hc hlen,
    lt_signers_iff hc hlen hk, ofOption, bind, Except.bind, pure, Except.pure]

theorem decompile_compile (h : compileInstruction o ix = .ok c) (hlen : c.accounts.length < 256) :
    decompileInstruction c = .ok (normalized ix) := by
  have hc := compileInstruction_spec h
  rw [hc.accounts] at hlen
  have hp : ix.programId ∈ keyTable o ix := (mem_keyTable o ix _).mpr (Or.inl rfl)
  have hget : c.accounts[(indexOf o ix ix.programId).toNat]? = some ix.programId := by
    rw [hc.accounts, indexOf_toNat hlen hp, List.getElem?_idxOf hp]
  have haccs : (ix.accounts.map fun a => indexOf o ix a.pubkey).mapM (decompileAccount c) =
      .ok (normalized ix).accounts := by
    rw [List.mapM_map]
    apply mapM_eq_ok_map
    intro a ha
    have hk : a.pubkey = ix.programId ∨ a.pubkey ∈ ix.accounts.map AccountMeta.pubkey :=
      Or.inr (List.mem_map_of_mem ha)
    rw [Function.comp_apply,
      decompileAccount_indexOf hc hlen ((mem_keyTable o ix _).mpr hk), rank_eq ix hk]
    have hflags := flags_getPriority (unionFlags ix a.pubkey)
    rw [unionFlags_pubkey] at hflags
    rw [hflags]
  simp only [decompileInstruction, hc.instructions, bind_eq_ok, ofOption_eq_ok, pure_eq_ok]
  exact ⟨_, hget, _, haccs, rfl⟩

end Decompile

end Antegen
