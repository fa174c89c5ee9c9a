import Antegen.ThreadExec

/-!
# Instructions on a thread and its fibers

`thread_create`, `thread_update` and the four fiber instructions of the thread
program. A fiber instruction checks an index against the thread's list and forwards
an account to the fiber program; nothing here compares the two. The list and the
cursor are changed on the deserialized copy, which is serialized at exit.
-/
namespace Antegen

/-- `u8::saturating_add(1)`. -/
def saturatingSucc (i : UInt8) : UInt8 := if i = 255 then 255 else i + 1

theorem saturatingSucc_toNat {i : UInt8} (h : i ≠ 255) :
    (saturatingSucc i).toNat = i.toNat + 1 := by
  have hlt := i.toNat_lt
  have hne : i.toNat ≠ 255 := fun he => h (UInt8.toNat_inj.mp he)
  rw [saturatingSucc, if_neg h, UInt8.toNat_add]
  simp only [UInt8.reduceToNat]
  omega

/-- An index is below the next id, or both are at their maximum. -/
def Behind (index next : UInt8) : Prop := index < next ∨ (index = 255 ∧ next = 255)

theorem behind_saturatingSucc (index : UInt8) : Behind index (saturatingSucc index) := by
  by_cases hmax : index = 255
  · subst hmax
    exact Or.inr ⟨rfl, rfl⟩
  · refine Or.inl (UInt8.lt_iff_toNat_lt.mpr ?_)
    rw [saturatingSucc_toNat hmax]
    omega

theorem Behind.mono {index next next' : UInt8} (h : Behind index next) (hle : next ≤ next') :
    Behind index next' := by
  rcases h with hlt | ⟨rfl, rfl⟩
  · exact Or.inl (UInt8.lt_of_lt_of_le hlt hle)
  · have hmax : next' ≤ 255 := by
      have hlt := next'.toNat_lt
      refine UInt8.le_iff_toNat_le.mpr ?_
      simp only [UInt8.reduceToNat]
      omega
    exact Or.inr ⟨rfl, UInt8.le_antisymm hmax hle⟩

namespace Thread

/-- `push` and `sort`. -/
def insertId (ids : List UInt8) (index : UInt8) : List UInt8 :=
  (ids ++ [index]).insertionSort (· ≤ ·)

/-- Tracking by `fiber_create`: the next id moves even if the index was there. -/
def trackCreated (t : Thread) (index : UInt8) : Thread :=
  { t with
    fiberIds := if index ∈ t.fiberIds then t.fiberIds else insertId t.fiberIds index
    fiberNextId := if t.fiberNextId ≤ index then saturatingSucc index else t.fiberNextId }

/-- Tracking by `fiber_update`: an index that was there changes nothing. -/
def trackUpdated (t : Thread) (index : UInt8) : Thread :=
  if index ∈ t.fiberIds then t
  else { t with
    fiberIds := insertId t.fiberIds index
    fiberNextId := if t.fiberNextId ≤ index then saturatingSucc index else t.fiberNextId }

/-- `fiber_close` moves the cursor off the index before it drops the index. -/
def untrackClosed (t : Thread) (index : UInt8) : Thread :=
  let t := if t.fiberCursor = index ∧ 1 < t.fiberIds.length then t.advanceToNextFiber else t
  let t := { t with fiberIds := t.fiberIds.filter (· ≠ index) }
  if t.fiberIds = [] then { t with fiberCursor := 0 } else t

/-- `fiber_swap` drops the index and moves the cursor to the first one left. -/
def untrackSwapped (t : Thread) (index : UInt8) : Thread :=
  let t := { t with fiberIds := t.fiberIds.filter (· ≠ index) }
  if t.fiberCursor = index then { t with fiberCursor := t.fiberIds.headD 0 } else t

/-! ## Indices and cursor -/

theorem mem_insertId {ids : List UInt8} {index j : UInt8} :
    j ∈ insertId ids index ↔ j = index ∨ j ∈ ids := by
  rw [insertId, (List.perm_insertionSort (· ≤ ·) (ids ++ [index])).mem_iff]
  simp [or_comm]

theorem insertId_sorted {ids : List UInt8} (hs : ids.Pairwise (· < ·)) {index : UInt8}
    (hnew : index ∉ ids) : (insertId ids index).Pairwise (· < ·) := by
  have hnodup : ids.Nodup := hs.imp fun h => UInt8.ne_of_lt h
  have happ : (ids ++ [index]).Nodup := by
    rw [List.nodup_append]
    exact ⟨hnodup, List.nodup_singleton _, fun a ha b hb => by
      rw [List.mem_singleton.mp hb]
      intro he
      exact hnew (he ▸ ha)⟩
  have hperm := List.perm_insertionSort (· ≤ ·) (ids ++ [index])
  have hle := List.pairwise_insertionSort (· ≤ ·) (ids ++ [index])
  have hne : (insertId ids index).Nodup := hperm.nodup_iff.mpr happ
  exact (hle.and hne).imp fun h => UInt8.lt_of_le_of_ne h.1 h.2

section Indices

variable (t : Thread) (index : UInt8)

theorem trackCreated_fiberIds : (t.trackCreated index).fiberIds =
    if index ∈ t.fiberIds then t.fiberIds else insertId t.fiberIds index := rfl

theorem trackUpdated_fiberIds : (t.trackUpdated index).fiberIds =
    if index ∈ t.fiberIds then t.fiberIds else insertId t.fiberIds index := by
  unfold trackUpdated
  split <;> rfl

theorem trackUpdated_fiberCursor : (t.trackUpdated index).fiberCursor = t.fiberCursor := by
  unfold trackUpdated
  split <;> rfl

theorem untrackClosed_fiberIds :
    (t.untrackClosed index).fiberIds = t.fiberIds.filter (· ≠ index) := by
  unfold untrackClosed advanceToNextFiber
  simp only
  split_ifs <;> rfl

theorem untrackClosed_fiberCursor : (t.untrackClosed index).fiberCursor =
    if t.fiberIds.filter (· ≠ index) = [] then 0
    else if t.fiberCursor = index ∧ 1 < t.fiberIds.length then cyclicNext t.fiberIds t.fiberCursor
    else t.fiberCursor := by
  unfold untrackClosed advanceToNextFiber
  simp only
  split_ifs <;> rfl

theorem untrackSwapped_fiberIds :
    (t.untrackSwapped index).fiberIds = t.fiberIds.filter (· ≠ index) := by
  unfold untrackSwapped
  simp only
  split_ifs <;> rfl

theorem untrackSwapped_fiberCursor : (t.untrackSwapped index).fiberCursor =
    if t.fiberCursor = index then (t.fiberIds.filter (· ≠ index)).headD 0 else t.fiberCursor := by
  unfold untrackSwapped
  simp only
  split_ifs <;> rfl

theorem untrackClosed_fiberNextId : (t.untrackClosed index).fiberNextId = t.fiberNextId := by
  unfold untrackClosed advanceToNextFiber
  simp only
  split_ifs <;> rfl

theorem untrackSwapped_fiberNextId : (t.untrackSwapped index).fiberNextId = t.fiberNextId := by
  unfold untrackSwapped
  simp only
  split_ifs <;> rfl

end Indices

theorem mem_tracked {ids : List UInt8} {index i : UInt8} :
    (i ∈ if index ∈ ids then ids else insertId ids index) ↔ i = index ∨ i ∈ ids := by
  by_cases hmem : index ∈ ids
  · rw [if_pos hmem]
    constructor
    · exact Or.inr
    · intro h
      rcases h with rfl | h
      · exact hmem
      · exact h
  · rw [if_neg hmem]
    exact mem_insertId

/-- Tracking an index keeps every index behind the next id. -/
theorem behind_tracked {ids : List UInt8} {next index i : UInt8}
    (h : ∀ j ∈ ids, Behind j next) (hi : i = index ∨ i ∈ ids) :
    Behind i (if next ≤ index then saturatingSucc index else next) := by
  by_cases hle : next ≤ index
  · rw [if_pos hle]
    rcases hi with rfl | hmem
    · exact behind_saturatingSucc i
    · refine (h i hmem).mono (UInt8.le_trans hle ?_)
      rcases behind_saturatingSucc index with hlt | ⟨rfl, hmax⟩
      · exact UInt8.le_of_lt hlt
      · rw [hmax]
        exact UInt8.le_refl _
  · rw [if_neg hle]
    rcases hi with rfl | hmem
    · exact Or.inl (UInt8.not_le.mp hle)
    · exact h i hmem

/-- Tracking an index keeps the list strictly increasing. -/
theorem tracked_sorted {ids : List UInt8} (hs : ids.Pairwise (· < ·)) (index : UInt8) :
    (if index ∈ ids then ids else insertId ids index).Pairwise (· < ·) := by
  split
  · exact hs
  · exact insertId_sorted hs ‹_›

end Thread

namespace ThreadProgram

def currentThreadVersion : UInt8 := 1

/-- Discriminator and `INIT_SPACE` of a thread, field by field. -/
def threadSpace : ℕ :=
  8 + (1 + 1 + 32 + (4 + 32) + (4 + 64) + 8 + 269 + 17 + (4 + 50) + 1 + 1 + 275 + 1 + 8 + 32 + 32 +
    (4 + 44) + (4 + 256))

/-- `State::size` of a nonce account. -/
def nonceSpace : ℕ := 80

def deleteThreadDiscriminator : List UInt8 := [124, 100, 128, 237, 104, 76, 66, 232]

def closeThreadDiscriminator : List UInt8 := [53, 231, 16, 49, 247, 101, 109, 11]

/-- No fiber may hold the admin's `thread_delete`. -/
def isDeleteThread (ix : Instruction) : Bool :=
  ix.programId = threadProgram && 8 ≤ ix.data.length &&
    ix.data.take 8 = deleteThreadDiscriminator

/-- Rent for a fiber account that is not yet initialised comes from the thread. -/
def prefundFiber (e : Env) (w : Ledger) (thread fiber : Pubkey) : Result Ledger :=
  if (w fiber).data.isEmpty then do
    let rent := e.minimumBalance FiberProgram.space
    require (rent ≤ (w thread).lamports) .panic
    let w ← w.writeLamports threadProgram thread ((w thread).lamports - rent)
    require ((w fiber).lamports + rent < 2 ^ 64) .panic
    w.writeLamports threadProgram fiber ((w fiber).lamports + rent)
  else .ok w

theorem prefundFiber_eq_ok {e : Env} {w w' : Ledger} {thread fiber : Pubkey}
    (h : prefundFiber e w thread fiber = .ok w') (k : Pubkey) :
    (w' k).owner = (w k).owner ∧ (w' k).data = (w k).data ∧
      (k ≠ thread → (w k).lamports ≤ (w' k).lamports) := by
  unfold prefundFiber at h
  split at h
  · simp only [bind_eq_ok, require_eq_ok, exists_and_left, exists_const] at h
    obtain ⟨-, w1, h1, -, h2⟩ := h
    obtain ⟨rfl, -⟩ := Ledger.writeLamports_eq_ok h1
    obtain ⟨rfl, -⟩ := Ledger.writeLamports_eq_ok h2
    refine ⟨by simp, by simp, fun hk => ?_⟩
    by_cases hf : k = fiber
    · subst hf
      simp [hk]
    · simp [hk, hf]
  · rw [← Except.ok.inj h]
    exact ⟨rfl, rfl, fun _ => le_rfl⟩

/-- Seeds constraint of a stored thread, with the bump it stores. -/
def checkSeeds (e : Env) (thread : Pubkey) (t : Thread) : Result Unit :=
  require (e.threadAddress t.authority t.id t.bump = some thread) .constraintSeeds

/-- The authority of the thread or the thread itself. -/
def checkAuthority (authority thread : Pubkey) (t : Thread) : Result Unit :=
  require (authority = t.authority ∨ authority = thread) .constraint

/-! ## Creation and update of the thread -/

structure ThreadCreateArgs where
  authority : Pubkey
  payer : Pubkey
  thread : Pubkey
  nonceAccount : Option Pubkey
  recentBlockhashes : Option Pubkey
  rent : Option Pubkey
  fiber : Option Pubkey
  fiberProgramGiven : Bool
  amount : ℕ
  id : List UInt8
  trigger : Trigger
  paused : Option Bool
  instruction : Option Instruction
  priorityFee : Option ℕ
  lookupTables : List Pubkey
  clock : Clock
  order : HashOrder

/-- What is missing for the rent of a fresh account comes from the payer. -/
def topUp (w : Ledger) (payer account : Pubkey) (rent : ℕ) : Result Ledger :=
  if rent ≤ (w account).lamports then .ok w
  else w.transfer payer account (rent - (w account).lamports)

/-- `init_if_needed`: an account of the system program is created, and an existing
thread is loaded and must be paid for. -/
def initIfNeeded (e : Env) (w : Ledger) (payer thread : Pubkey) : Result Ledger :=
  if (w thread).owner = systemProgram then do
    let w ← topUp w payer thread (e.minimumBalance threadSpace)
    let w ← w.allocate thread threadSpace
    w.assign thread threadProgram
  else do
    let _ ← w.loadThread thread
    require (e.minimumBalance threadSpace ≤ (w thread).lamports) .constraint
    pure w

/-- The system program creates the nonce account with the thread as authority. -/
def createNonceAccount (e : Env) (w : Ledger) (payer nonce recent thread : Pubkey) :
    Result Ledger := do
  require ((w nonce).lamports = 0) .accountInUse
  let w ← w.allocate nonce nonceSpace
  let w ← w.transfer payer nonce (e.minimumBalance nonceSpace)
  w.writeData systemProgram nonce (.bytes (e.initialNonce recent thread))

/-- The nonce account of the new thread; the program's own id stands for none. -/
def setupNonce (e : Env) (a : ThreadCreateArgs) (w : Ledger) : Result (Ledger × Pubkey) :=
  match a.nonceAccount with
  | none => .ok (w, threadProgram)
  | some nonce => do
    let recent ← ofOption (.thread .invalidNonceAccount) a.recentBlockhashes
    let _ ← ofOption (.thread .invalidNonceAccount) a.rent
    let w ← createNonceAccount e w a.payer nonce recent a.thread
    pure (w, nonce)

/-- `thread_close` with the thread signing for itself and rent going to its owner. -/
def closeThreadInstruction (authority thread : Pubkey) : Instruction :=
  ⟨threadProgram, [⟨thread, true, false⟩, ⟨authority, false, true⟩, ⟨thread, false, true⟩,
    ⟨fiberProgram, false, false⟩], closeThreadDiscriminator⟩

/-- The optional fiber 0 of a new thread. -/
def createFirstFiber (e : Env) (a : ThreadCreateArgs) (w : Ledger) : Result Ledger :=
  match a.instruction with
  | none => .ok w
  | some ix => do
    require (isDeleteThread ix = false) (.thread .invalidInstruction)
    let fiber ← ofOption (.thread .missingFiberAccount) a.fiber
    require a.fiberProgramGiven (.thread .missingFiberAccount)
    let w ← prefundFiber e w a.thread fiber
    FiberProgram.create e.toEnv
      ⟨a.thread, fiber, 0, ix, a.priorityFee.getD 0, a.lookupTables, a.order⟩ w

/-- The thread that `thread_create` stores. -/
def createdThread (a : ThreadCreateArgs) (bump : UInt8) (nonce : Pubkey) (schedule : Schedule)
    (closeFiber : List UInt8) : Thread where
  version := currentThreadVersion
  bump := bump
  authority := a.authority
  id := a.id
  createdAt := a.clock.unixTimestamp
  trigger := a.trigger
  schedule := schedule
  fiberIds := if a.instruction.isSome then [0] else []
  fiberCursor := 0
  fiberNextId := if a.instruction.isSome then 1 else 0
  fiberSignal := .none
  paused := a.paused.getD false
  execCount := 0
  lastExecutor := 0
  nonceAccount := nonce
  closeFiber := closeFiber

def threadCreate (e : Env) (a : ThreadCreateArgs) (w : Ledger) : Result Ledger := do
  let bump ← ofOption .constraintSeeds (e.threadBump a.authority a.id)
  require (e.threadAddress a.authority a.id bump = some a.thread) .constraintSeeds
  let w ← initIfNeeded e w a.payer a.thread
  let (w, nonce) ← setupNonce e a w
  let schedule ← initialSchedule e.toHost a.trigger a.clock a.thread
  let closeFiber ← compileToBytes a.order (closeThreadInstruction a.authority a.thread)
  let w ← w.transfer a.payer a.thread a.amount
  let w ← createFirstFiber e a w
  w.exitThread a.thread (createdThread a bump nonce schedule closeFiber)

structure ThreadUpdateArgs where
  authority : Pubkey
  thread : Pubkey
  paused : Option Bool
  trigger : Option Trigger
  clock : Clock

/-- A new trigger brings a new schedule, and unpauses unless told otherwise. -/
def updatedThread (e : Env) (a : ThreadUpdateArgs) (t : Thread) : Result Thread :=
  let paused := a.paused.getD t.paused
  match a.trigger with
  | none => .ok { t with paused := paused }
  | some trigger => do
    let schedule ← initialSchedule e.toHost trigger a.clock a.thread
    pure { t with
      trigger := trigger
      schedule := schedule
      paused := if a.paused.isNone then false else paused }

theorem updatedThread_eq {e : Env} {a : ThreadUpdateArgs} {t t' : Thread}
    (h : updatedThread e a t = .ok t') :
    t' = { t with trigger := t'.trigger, schedule := t'.schedule, paused := t'.paused } := by
  unfold updatedThread at h
  simp only at h
  split at h
  · rw [← Except.ok.inj h]
  · simp only [bind_eq_ok, pure_eq_ok] at h
    obtain ⟨schedule, -, h⟩ := h
    rw [← h]

def threadUpdate (e : Env) (a : ThreadUpdateArgs) (w : Ledger) : Result Ledger := do
  let t ← w.loadThread a.thread
  checkSeeds e a.thread t
  require (a.authority = t.authority) .constraint
  let t ← updatedThread e a t
  w.exitThread a.thread t

/-! ## Fibers of the thread -/

structure FiberCreateArgs where
  authority : Pubkey
  thread : Pubkey
  fiber : Pubkey
  fiberIndex : UInt8
  instruction : Instruction
  priorityFee : ℕ
  lookupTables : List Pubkey
  order : HashOrder

def fiberCreate (e : Env) (a : FiberCreateArgs) (w : Ledger) : Result Ledger := do
  let t ← w.loadThread a.thread
  checkAuthority a.authority a.thread t
  checkSeeds e a.thread t
  require (isDeleteThread a.instruction = false) (.thread .invalidInstruction)
  let w ← prefundFiber e w a.thread a.fiber
  let w ← FiberProgram.create e.toEnv
    ⟨a.thread, a.fiber, a.fiberIndex, a.instruction, a.priorityFee, a.lookupTables, a.order⟩ w
  w.exitThread a.thread (t.trackCreated a.fiberIndex)

structure FiberUpdateArgs where
  authority : Pubkey
  thread : Pubkey
  fiber : Pubkey
  fiberIndex : UInt8
  instruction : Option Instruction
  priorityFee : Option ℕ
  track : Bool
  lookupTables : Option (List Pubkey)
  order : HashOrder

def fiberUpdate (e : Env) (a : FiberUpdateArgs) (w : Ledger) : Result Ledger := do
  let t ← w.loadThread a.thread
  checkAuthority a.authority a.thread t
  checkSeeds e a.thread t
  require (∀ ix ∈ a.instruction, isDeleteThread ix = false) (.thread .invalidInstruction)
  let w ← prefundFiber e w a.thread a.fiber
  let w ← FiberProgram.update e.toEnv
    ⟨a.thread, a.fiber, a.fiberIndex, a.instruction, a.priorityFee, a.lookupTables, a.order⟩ w
  w.exitThread a.thread (if a.track then t.trackUpdated a.fiberIndex else t)

structure FiberCloseArgs where
  authority : Pubkey
  thread : Pubkey
  fiber : Pubkey
  fiberIndex : UInt8

def fiberClose (e : Env) (a : FiberCloseArgs) (w : Ledger) : Result Ledger := do
  let t ← w.loadThread a.thread
  checkAuthority a.authority a.thread t
  checkSeeds e a.thread t
  require (a.fiberIndex ∈ t.fiberIds) (.thread .invalidFiberIndex)
  let w ← FiberProgram.close ⟨a.thread, a.fiber⟩ w
  w.exitThread a.thread (t.untrackClosed a.fiberIndex)

structure FiberSwapArgs where
  authority : Pubkey
  thread : Pubkey
  target : Pubkey
  source : Pubkey
  sourceFiberIndex : UInt8

def fiberSwap (e : Env) (a : FiberSwapArgs) (w : Ledger) : Result Ledger := do
  let t ← w.loadThread a.thread
  checkAuthority a.authority a.thread t
  checkSeeds e a.thread t
  require (a.sourceFiberIndex ∈ t.fiberIds) (.thread .invalidFiberIndex)
  let w ← FiberProgram.swap ⟨a.thread, a.target, a.source⟩ w
  w.exitThread a.thread (t.untrackSwapped a.sourceFiberIndex)

/-- The instructions above, with their accounts and arguments. -/
inductive Ix
  | threadCreate (a : ThreadCreateArgs)
  | threadUpdate (a : ThreadUpdateArgs)
  | fiberCreate (a : FiberCreateArgs)
  | fiberUpdate (a : FiberUpdateArgs)
  | fiberClose (a : FiberCloseArgs)
  | fiberSwap (a : FiberSwapArgs)

def Ix.thread : Ix → Pubkey
  | threadCreate a => a.thread
  | threadUpdate a => a.thread
  | fiberCreate a => a.thread
  | fiberUpdate a => a.thread
  | fiberClose a => a.thread
  | fiberSwap a => a.thread

def process (e : Env) : Ix → Ledger → Result Ledger
  | .threadCreate a => threadCreate e a
  | .threadUpdate a => threadUpdate e a
  | .fiberCreate a => fiberCreate e a
  | .fiberUpdate a => fiberUpdate e a
  | .fiberClose a => fiberClose e a
  | .fiberSwap a => fiberSwap e a

/-! ## A thread with one fiber -/

/-- `thread_memo` as a callee: it returns the signal it was given. -/
def memoCpi (s : Signal) : Cpi := fun ix w => .ok (w, some ⟨ix.programId, some s⟩)

/-- Payer 7 creates thread 1 with a memo as fiber 0, at timestamp 50. -/
def sampleCreate (trigger : Trigger) : ThreadCreateArgs where
  authority := 5
  payer := 7
  thread := 1
  nonceAccount := none
  recentBlockhashes := none
  rent := none
  fiber := some (sampleEnv.pubkey 1 0)
  fiberProgramGiven := true
  amount := 100000000
  id := [1]
  trigger := trigger
  paused := none
  instruction := some (FiberProgram.sampleMemo 1)
  priorityFee := none
  lookupTables := []
  clock := ⟨50, 1, 50⟩
  order := FiberProgram.insertionOrder

/-- A ledger with nothing but the balance of payer 7. -/
def payerLedger : Ledger := fun k =>
  if k = 7 then ⟨10000000000, systemProgram, .bytes []⟩ else Account.vacant

end ThreadProgram

end Antegen
