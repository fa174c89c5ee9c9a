import Antegen.FiberState
import Antegen.Ledger

/-!
# The fiber program

Four instructions, each signed by a thread address. `update` ties the fiber
account to the signer by its seeds, `close` and `swap` by the thread stored in it,
and `create` by its address, but only when the account is empty.
-/
namespace Antegen.FiberProgram

/-- Address derivation and rent, as the runtime provides them. -/
structure Env where
  pubkey : Pubkey → UInt8 → Pubkey
  minimumBalance : ℕ → ℕ

/-- Space of every account the program allocates. -/
def space : ℕ := 8 + FiberVersionedState.initSpace

def readFiber : AccountData → Result Fiber
  | .bytes b => Fiber.tryDeserialize b
  | .thread _ => .error (.fiber .invalidFiberData)

/-- `write_versioned` or `write_legacy` on an account. -/
def writeFiber (w : Ledger) (k : Pubkey) (f : Fiber) : Result Ledger :=
  match (w k).data with
  | .bytes b => do
    let out ← f.write b
    w.writeData fiberProgram k (.bytes out)
  | .thread _ => .error .externalAccountModified

structure CreateArgs where
  thread : Pubkey
  fiber : Pubkey
  fiberIndex : UInt8
  instruction : Instruction
  priorityFee : ℕ
  lookupTables : List Pubkey
  order : HashOrder

def initializeFiber (e : Env) (a : CreateArgs) (w : Ledger) : Result Ledger := do
  require (a.lookupTables.length ≤ maxLookupTablesPerFiber) (.fiber .lookupTablesExceedMax)
  require (e.pubkey a.thread a.fiberIndex = a.fiber) (.fiber .invalidFiberPDA)
  require (e.minimumBalance space ≤ (w a.fiber).lamports) (.fiber .insufficientRent)
  let w ← w.allocate a.fiber space
  let w ← w.assign a.fiber fiberProgram
  let compiled ← compileToBytes a.order a.instruction
  writeFiber w a.fiber
    (.v1 ⟨currentFiberVersion, a.thread, compiled, 0, 0, a.priorityFee, a.lookupTables⟩)

/-- The state that `create` writes over an initialised account. -/
def recreated (a : CreateArgs) (compiled : List UInt8) : Fiber → Result Fiber
  | .legacy s => do
    require (a.lookupTables = []) (.fiber .legacyFiberLookupTablesUnsupported)
    pure (.legacy { s with
      thread := a.thread
      compiledInstruction := compiled
      priorityFee := a.priorityFee
      lastExecuted := 0
      execCount := 0 })
  | .v1 s => pure (.v1 { s with
      version := currentFiberVersion
      thread := a.thread
      compiledInstruction := compiled
      priorityFee := a.priorityFee
      lastExecuted := 0
      execCount := 0
      lookupTables := a.lookupTables })

def create (e : Env) (a : CreateArgs) (w : Ledger) : Result Ledger := do
  require (a.lookupTables.length ≤ maxLookupTablesPerFiber) (.fiber .lookupTablesExceedMax)
  if (w a.fiber).data.isEmpty then initializeFiber e a w
  else do
    let compiled ← compileToBytes a.order a.instruction
    let f ← readFiber (w a.fiber).data
    let f' ← recreated a compiled f
    writeFiber w a.fiber f'

structure UpdateArgs where
  thread : Pubkey
  fiber : Pubkey
  fiberIndex : UInt8
  instruction : Option Instruction
  priorityFee : Option ℕ
  lookupTables : Option (List Pubkey)
  order : HashOrder

/-- `apply_instruction_update`: a missing instruction wipes the stored one. -/
def applyInstructionUpdate (o : HashOrder) : Option Instruction → Result (List UInt8)
  | some ix => compileToBytes o ix
  | none => pure []

/-- The state that `update` writes over an initialised account. -/
def updated (a : UpdateArgs) : Fiber → Result Fiber
  | .legacy s => do
    require (a.lookupTables.getD [] = []) (.fiber .legacyFiberLookupTablesUnsupported)
    let compiled ← applyInstructionUpdate a.order a.instruction
    pure (.legacy { s with
      thread := a.thread
      compiledInstruction := compiled
      priorityFee := a.priorityFee.getD s.priorityFee
      lastExecuted := 0
      execCount := 0 })
  | .v1 s => do
    let compiled ← applyInstructionUpdate a.order a.instruction
    pure (.v1 { s with
      version := currentFiberVersion
      thread := a.thread
      compiledInstruction := compiled
      priorityFee := a.priorityFee.getD s.priorityFee
      lookupTables := a.lookupTables.getD s.lookupTables
      lastExecuted := 0
      execCount := 0 })

def update (e : Env) (a : UpdateArgs) (w : Ledger) : Result Ledger := do
  require (e.pubkey a.thread a.fiberIndex = a.fiber) .constraintSeeds
  require ((a.lookupTables.getD []).length ≤ maxLookupTablesPerFiber)
    (.fiber .lookupTablesExceedMax)
  if (w a.fiber).data.isEmpty then do
    let ix ← ofOption .instructionMissing a.instruction
    initializeFiber e
      ⟨a.thread, a.fiber, a.fiberIndex, ix, a.priorityFee.getD 0, a.lookupTables.getD [], a.order⟩ w
  else do
    let f ← readFiber (w a.fiber).data
    let f' ← updated a f
    writeFiber w a.fiber f'

/-- `sweep_fiber_lamports`: all lamports to the thread, a tombstone in the data. -/
def sweepFiberLamports (w : Ledger) (fiber thread : Pubkey) : Result Ledger := do
  let total := (w thread).lamports + (w fiber).lamports
  require (total < 2 ^ 64) .arithmeticOverflow
  let w ← w.writeLamports fiberProgram thread total
  let w ← w.writeLamports fiberProgram fiber 0
  match (w fiber).data with
  | .bytes b => w.writeData fiberProgram fiber (.bytes (sweptData b))
  | .thread _ => throw .externalAccountModified

structure CloseArgs where
  thread : Pubkey
  fiber : Pubkey

def close (a : CloseArgs) (w : Ledger) : Result Ledger := do
  let f ← readFiber (w a.fiber).data
  require (f.thread = a.thread) (.fiber .invalidFiberPDA)
  sweepFiberLamports w a.fiber a.thread

structure SwapArgs where
  thread : Pubkey
  target : Pubkey
  source : Pubkey

/-- The target's new state. Lookup tables on the target stay as they were. -/
def swapped (source : Fiber) : Fiber → Fiber
  | .legacy s => .legacy { s with
      compiledInstruction := source.compiledInstruction
      priorityFee := source.priorityFee
      lastExecuted := 0
      execCount := 0 }
  | .v1 s => .v1 { s with
      version := currentFiberVersion
      compiledInstruction := source.compiledInstruction
      priorityFee := source.priorityFee
      lastExecuted := 0
      execCount := 0 }

def swap (a : SwapArgs) (w : Ledger) : Result Ledger := do
  let source ← readFiber (w a.source).data
  require (source.thread = a.thread) (.fiber .invalidFiberPDA)
  let target ← readFiber (w a.target).data
  require (target.thread = a.thread) (.fiber .invalidFiberPDA)
  let w ← writeFiber w a.target (swapped source target)
  sweepFiberLamports w a.source a.thread

/-! ## What each write does -/

/-- The fiber an address holds, if its account is owned by the program and readable. -/
def fiberAt (w : Ledger) (k : Pubkey) : Option Fiber :=
  if (w k).owner = fiberProgram then (readFiber (w k).data).toOption else none

theorem fiberAt_eq_some {w : Ledger} {k : Pubkey} {f : Fiber} :
    fiberAt w k = some f ↔ (w k).owner = fiberProgram ∧ readFiber (w k).data = .ok f := by
  unfold fiberAt
  by_cases h : (w k).owner = fiberProgram
  · rw [if_pos h]
    cases readFiber (w k).data <;> simp [Except.toOption, h]
  · simp [h]

/-- A stored fiber replaces bytes by bytes of the same number that read back as it. -/
theorem writeFiber_eq_ok {w w' : Ledger} {k : Pubkey} {f : Fiber}
    (h : writeFiber w k f = .ok w') :
    ∃ b out, (w k).data = .bytes b ∧ w' = w.setData k (.bytes out) ∧ f.write b = .ok out ∧
      (b = out ∨ (w k).owner = fiberProgram) := by
  unfold writeFiber at h
  cases hd : (w k).data with
  | thread t => simp [hd] at h
  | bytes b =>
    simp only [hd, bind_eq_ok] at h
    obtain ⟨out, hout, h⟩ := h
    obtain ⟨hw, ho⟩ := Ledger.writeData_eq_ok h
    rw [hd, AccountData.bytes.injEq] at ho
    exact ⟨b, out, rfl, hw, hout, ho⟩

theorem recreated_thread {a : CreateArgs} {compiled : List UInt8} {f f' : Fiber}
    (h : recreated a compiled f = .ok f') : f'.thread = a.thread := by
  cases f with
  | legacy s =>
    simp only [recreated, bind_eq_ok, pure_eq_ok] at h
    obtain ⟨-, -, rfl⟩ := h
    rfl
  | v1 s =>
    rw [← pure_eq_ok.mp h]
    rfl

theorem updated_thread {a : UpdateArgs} {f f' : Fiber} (h : updated a f = .ok f') :
    f'.thread = a.thread := by
  cases f with
  | legacy s =>
    simp only [updated, bind_eq_ok, pure_eq_ok] at h
    obtain ⟨-, -, -, -, rfl⟩ := h
    rfl
  | v1 s =>
    simp only [updated, bind_eq_ok, pure_eq_ok] at h
    obtain ⟨-, -, rfl⟩ := h
    rfl

@[simp] theorem swapped_thread (source f : Fiber) : (swapped source f).thread = f.thread := by
  cases f <;> rfl

/-- Initialisation fills an empty account at the signer's derived address. -/
theorem initializeFiber_eq_ok {e : Env} {a : CreateArgs} {w w' : Ledger}
    (h : initializeFiber e a w = .ok w') :
    e.pubkey a.thread a.fiberIndex = a.fiber ∧ (w a.fiber).owner = systemProgram ∧
      e.minimumBalance space ≤ (w a.fiber).lamports ∧
      ∃ (compiled out : List UInt8) (f : Fiber), compileToBytes a.order a.instruction = .ok compiled ∧
        f.compiledInstruction = compiled ∧ f.thread = a.thread ∧
        f.write (List.replicate space 0) = .ok out ∧
        w' = (w.setOwner a.fiber fiberProgram).setData a.fiber (.bytes out) := by
  simp only [initializeFiber, bind_eq_ok, require_eq_ok, exists_and_left, exists_const] at h
  obtain ⟨-, hpda, hrent, w1, h1, w2, h2, compiled, hcompiled, h3⟩ := h
  simp only [Ledger.allocate, bind_eq_ok, require_eq_ok, exists_and_left, exists_const,
    pure_eq_ok] at h1
  obtain ⟨⟨-, hsys⟩, rfl⟩ := h1
  have hne : ¬ (w a.fiber).owner = fiberProgram := by
    rw [hsys]
    exact fiberProgram_ne_systemProgram.symm
  rw [Ledger.assign, Ledger.setData_owner, if_neg hne, if_pos hsys] at h2
  obtain rfl := Except.ok.inj h2
  obtain ⟨b, out, hb, rfl, hout, -⟩ := writeFiber_eq_ok h3
  have hzeros : List.replicate space 0 = b := by simpa using hb
  rw [← hzeros] at hout
  refine ⟨hpda, hsys, hrent, compiled, out, _, hcompiled, rfl, rfl, hout, ?_⟩
  funext j
  by_cases hj : j = a.fiber
  · subst hj
    simp [Ledger.setData, Ledger.setOwner]
  · simp [Ledger.setData, Ledger.setOwner, hj]

/-- An instruction that stores a fiber of `thread` in account `k` and changes nothing else. -/
structure Writes (thread k : Pubkey) (w w' : Ledger) : Prop where
  frame : ∀ j, j ≠ k → w' j = w j
  lamports : (w' k).lamports = (w k).lamports
  fiber : ∃ f, readFiber (w' k).data = .ok f ∧ f.thread = thread

/-- The account was empty, at the derived address of the index, and paid for. -/
structure Fresh (e : Env) (thread k : Pubkey) (index : UInt8) (w w' : Ledger) : Prop where
  address : e.pubkey thread index = k
  before : (w k).owner = systemProgram
  after : (w' k).owner = fiberProgram
  rent : e.minimumBalance space ≤ (w k).lamports
  size : ∃ b, (w' k).data = .bytes b ∧ b.length = space

/-- The account held a readable fiber and keeps its owner and the length of its data. -/
structure Rewrites (k : Pubkey) (w w' : Ledger) : Prop where
  read : ∃ f, readFiber (w k).data = .ok f
  owner : (w' k).owner = (w k).owner
  permitted : w' k = w k ∨ (w k).owner = fiberProgram
  size : ∃ b b', (w k).data = .bytes b ∧ (w' k).data = .bytes b' ∧ b'.length = b.length

/-- The two ways an instruction comes by the account it stores a fiber in. -/
def Origin (e : Env) (thread k : Pubkey) (index : UInt8) (w w' : Ledger) : Prop :=
  Fresh e thread k index w w' ∨ Rewrites k w w'

/-- Only accounts of the system program change hands. -/
theorem Origin.owner_eq {e : Env} {thread k : Pubkey} {index : UInt8} {w w' : Ledger}
    (h : Origin e thread k index w w') (howner : (w k).owner ≠ systemProgram) :
    (w' k).owner = (w k).owner := by
  rcases h with h | h
  · exact absurd h.before howner
  · exact h.owner

theorem initializeFiber_writes {e : Env} {a : CreateArgs} {w w' : Ledger}
    (h : initializeFiber e a w = .ok w') :
    Writes a.thread a.fiber w w' ∧ Fresh e a.thread a.fiber a.fiberIndex w w' := by
  obtain ⟨hpda, hsys, hrent, -, out, f, -, -, hthread, hout, rfl⟩ := initializeFiber_eq_ok h
  have hlen := Fiber.write_length hout
  rw [List.length_replicate] at hlen
  have hread : readFiber (.bytes out) = .ok f := Fiber.tryDeserialize_write hout
  refine ⟨⟨fun j hj => ?_, by simp, ⟨f, by simpa using hread, hthread⟩⟩,
    ⟨hpda, hsys, by simp, hrent, ⟨out, by simp, hlen⟩⟩⟩
  rw [Ledger.setData_of_ne _ hj, Ledger.setOwner_of_ne _ hj]

theorem writeFiber_writes {w w' : Ledger} {k : Pubkey} {f g : Fiber}
    (hread : readFiber (w k).data = .ok g) (h : writeFiber w k f = .ok w') :
    Writes f.thread k w w' ∧ Rewrites k w w' := by
  obtain ⟨b, out, hb, rfl, hout, ho⟩ := writeFiber_eq_ok h
  have hread' : readFiber (.bytes out) = .ok f := Fiber.tryDeserialize_write hout
  refine ⟨⟨fun j hj => w.setData_of_ne hj _, by simp, ⟨f, by simpa using hread', rfl⟩⟩,
    ⟨⟨g, hread⟩, by simp, ?_, ⟨b, out, hb, by simp, Fiber.write_length hout⟩⟩⟩
  rcases ho with hd | ho
  · exact Or.inl (by rw [← hd, ← hb, Ledger.setData_self])
  · exact Or.inr ho

theorem create_eq_ok {e : Env} {a : CreateArgs} {w w' : Ledger} (h : create e a w = .ok w') :
    Writes a.thread a.fiber w w' ∧ Origin e a.thread a.fiber a.fiberIndex w w' := by
  simp only [create, bind_eq_ok, require_eq_ok, exists_and_left, exists_const] at h
  obtain ⟨-, h⟩ := h
  split at h
  · obtain ⟨hw, hfresh⟩ := initializeFiber_writes h
    exact ⟨hw, Or.inl hfresh⟩
  · simp only [bind_eq_ok] at h
    obtain ⟨compiled, -, f, hread, f', hf', h⟩ := h
    obtain ⟨hw, hre⟩ := writeFiber_writes hread h
    rw [← recreated_thread hf']
    exact ⟨hw, Or.inr hre⟩

/-- Besides, the seeds constraint ties the account of an update to its index. -/
theorem update_eq_ok {e : Env} {a : UpdateArgs} {w w' : Ledger} (h : update e a w = .ok w') :
    e.pubkey a.thread a.fiberIndex = a.fiber ∧ Writes a.thread a.fiber w w' ∧
      Origin e a.thread a.fiber a.fiberIndex w w' := by
  simp only [update, bind_eq_ok, require_eq_ok, exists_and_left, exists_const] at h
  obtain ⟨hseeds, -, h⟩ := h
  refine ⟨hseeds, ?_⟩
  split at h
  · simp only [bind_eq_ok] at h
    obtain ⟨ix, -, h⟩ := h
    obtain ⟨hw, hfresh⟩ := initializeFiber_writes h
    exact ⟨hw, Or.inl hfresh⟩
  · simp only [bind_eq_ok] at h
    obtain ⟨f, hread, f', hf', h⟩ := h
    obtain ⟨hw, hre⟩ := writeFiber_writes hread h
    rw [← updated_thread hf']
    exact ⟨hw, Or.inr hre⟩

/-- An instruction that closes account `k` in favour of `thread`. -/
structure Sweeps (thread k : Pubkey) (w w' : Ledger) : Prop where
  frame : ∀ j, j ≠ k → j ≠ thread → w' j = w j
  owner : ∀ j, (w' j).owner = (w j).owner
  data : ∀ j, j ≠ k → (w' j).data = (w j).data
  credited : ∀ j, j ≠ k → (w j).lamports ≤ (w' j).lamports
  drained : (w' k).lamports = 0
  unreadable : ∀ f, readFiber (w' k).data ≠ .ok f

theorem sweepFiberLamports_eq_ok {w w' : Ledger} {fiber thread : Pubkey}
    (h : sweepFiberLamports w fiber thread = .ok w') : Sweeps thread fiber w w' := by
  simp only [sweepFiberLamports, bind_eq_ok, require_eq_ok, exists_and_left, exists_const] at h
  obtain ⟨-, w1, h1, w2, h2, h3⟩ := h
  obtain ⟨rfl, -⟩ := Ledger.writeLamports_eq_ok h1
  obtain ⟨rfl, -⟩ := Ledger.writeLamports_eq_ok h2
  split at h3
  · rename_i b _
    obtain ⟨rfl, -⟩ := Ledger.writeData_eq_ok h3
    refine ⟨fun j hj hj' => ?_, by simp, fun j hj => by simp [hj], fun j hj => ?_, by simp,
      fun f => ?_⟩
    · rw [Ledger.setData_of_ne _ hj, Ledger.setLamports_of_ne _ hj, Ledger.setLamports_of_ne _ hj']
    · simp only [Ledger.setData_lamports, Ledger.setLamports_lamports, hj, if_false]
      split_ifs with ht
      · subst ht
        omega
      · exact le_rfl
    · simpa [readFiber] using tryDeserialize_sweptData b f
  · exact absurd h3 (by simp)

/-- A closed account held a fiber of the signer. -/
theorem close_eq_ok {a : CloseArgs} {w w' : Ledger} (h : close a w = .ok w') :
    (∃ f, readFiber (w a.fiber).data = .ok f ∧ f.thread = a.thread) ∧
      Sweeps a.thread a.fiber w w' := by
  simp only [close, bind_eq_ok, require_eq_ok, exists_and_left, exists_const] at h
  obtain ⟨f, hread, hf, h⟩ := h
  exact ⟨⟨f, hread, hf⟩, sweepFiberLamports_eq_ok h⟩

/-- A swap rewrites a fiber of the signer and then closes another one. -/
theorem swap_eq_ok {a : SwapArgs} {w w' : Ledger} (h : swap a w = .ok w') :
    ∃ source target w1, readFiber (w a.source).data = .ok source ∧ source.thread = a.thread ∧
      readFiber (w a.target).data = .ok target ∧ target.thread = a.thread ∧
      Writes a.thread a.target w w1 ∧ Rewrites a.target w w1 ∧
      Sweeps a.thread a.source w1 w' := by
  simp only [swap, bind_eq_ok, require_eq_ok, exists_and_left, exists_const] at h
  obtain ⟨source, hs, hst, target, ht, htt, w1, h1, h2⟩ := h
  obtain ⟨hw, hre⟩ := writeFiber_writes ht h1
  rw [swapped_thread, htt] at hw
  exact ⟨source, target, w1, hs, hst, ht, htt, hw, hre, sweepFiberLamports_eq_ok h2⟩

end Antegen.FiberProgram
