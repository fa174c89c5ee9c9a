import Antegen.FiberIsolation

/-!
# The format of fiber accounts

Seen from above, the program keeps a store that maps each address to what its
account holds, and each instruction records one new state in it. The bytes on disk
refine the store: what an account decodes to is what was recorded last, although a
write leaves the tail of a longer, earlier state behind it. A record keeps the shape
of the fiber it replaces.
-/
namespace Antegen.FiberProgram

open Transition

/-- What an account holds: nothing yet, a fiber, or data that is no fiber. -/
inductive Slot
  | empty
  | fiber (f : Fiber)
  | unreadable

/-- The accounts by address, as the instructions mean them. -/
abbrev Store := Pubkey → Slot

/-- What account data decodes to. -/
def decoded (d : AccountData) : Slot :=
  if d.isEmpty then .empty
  else match readFiber d with
    | .ok f => .fiber f
    | .error _ => .unreadable

def stored (w : Ledger) : Store := fun k => decoded (w k).data

/-- The first state of a fiber. -/
def firstState (thread : Pubkey) (compiled : List UInt8) (priorityFee : ℕ)
    (lookupTables : List Pubkey) : Fiber :=
  .v1 ⟨currentFiberVersion, thread, compiled, 0, 0, priorityFee, lookupTables⟩

/-- The state that `create` or `update` records over what the store has. -/
def createdState (a : CreateArgs) : Slot → Result Fiber
  | .empty => do
    let compiled ← compileToBytes a.order a.instruction
    pure (firstState a.thread compiled a.priorityFee a.lookupTables)
  | .fiber f => do
    let compiled ← compileToBytes a.order a.instruction
    recreated a compiled f
  | .unreadable => .error (.fiber .invalidFiberData)

def updatedState (a : UpdateArgs) : Slot → Result Fiber
  | .empty => do
    let ix ← ofOption .instructionMissing a.instruction
    let compiled ← compileToBytes a.order ix
    pure (firstState a.thread compiled (a.priorityFee.getD 0) (a.lookupTables.getD []))
  | .fiber f => updated a f
  | .unreadable => .error (.fiber .invalidFiberData)

def Slot.read : Slot → Result Fiber
  | fiber f => .ok f
  | _ => .error (.fiber .invalidFiberData)

/-- The lookup tables an instruction brings, and the account it stores a fiber in. -/
def Ix.lookupTables : Ix → List Pubkey
  | create a => a.lookupTables
  | update a => a.lookupTables.getD []
  | close _ => []
  | swap _ => []

def Ix.target : Ix → Pubkey
  | create a => a.fiber
  | update a => a.fiber
  | close a => a.fiber
  | swap a => a.target

/-- An instruction on the store. -/
def record (s : Store) (ix : Ix) : Result Store := do
  require (ix.lookupTables.length ≤ maxLookupTablesPerFiber) (.fiber .lookupTablesExceedMax)
  match ix with
  | .create a => do
    let f ← createdState a (s a.fiber)
    pure (Function.update s a.fiber (.fiber f))
  | .update a => do
    let f ← updatedState a (s a.fiber)
    pure (Function.update s a.fiber (.fiber f))
  | .close a => do
    let _ ← (s a.fiber).read
    pure (Function.update s a.fiber .unreadable)
  | .swap a => do
    let source ← (s a.source).read
    let target ← (s a.target).read
    pure (Function.update (Function.update s a.target (.fiber (swapped source target))) a.source
      .unreadable)

/-- Steps of the store: records, and accounts that vanish with their lamports. -/
def StoreStep (s : Store) : Event → Store → Prop
  | .instruction ix, s' => record s ix = .ok s'
  | .foreign, _ => False
  | .endOfTransaction, s' => ∀ k, s' k = s k ∨ s' k = .empty

/-- Steps of the program itself and ends of transactions. -/
def OwnStep (e : Env) (threads : Set Pubkey) : Ledger → Event → Ledger → Prop :=
  Guarded (Step e threads) fun _ ev => ev ≠ .foreign

/-- What instructions may make of an account: a fiber keeps its shape until it is
closed, and what is no fiber stays so. -/
def Slot.Becomes : Slot → Slot → Prop
  | empty, _ => True
  | fiber f, fiber f' => f'.isLegacy = f.isLegacy
  | fiber _, empty => False
  | fiber _, unreadable => True
  | unreadable, b => b = unreadable

/-- No fiber holds more lookup tables than there is room for. -/
def Bounded (s : Store) : Prop :=
  ∀ k f, s k = .fiber f → f.lookupTables.length ≤ maxLookupTablesPerFiber

/-! ## The bytes refine the store -/

theorem readFiber_of_isEmpty {d : AccountData} (h : d.isEmpty = true) (f : Fiber) :
    readFiber d ≠ .ok f := by
  intro hread
  cases d with
  | thread t => exact absurd hread (by simp [readFiber])
  | bytes b =>
    have hb : b = [] := by simpa [AccountData.isEmpty] using h
    rw [hb] at hread
    exact absurd hread (by simp [readFiber, Fiber.tryDeserialize])

theorem decoded_of_readFiber {d : AccountData} {f : Fiber} (h : readFiber d = .ok f) :
    decoded d = .fiber f := by
  have hne : ¬ d.isEmpty = true := fun he => readFiber_of_isEmpty he f h
  rw [decoded, if_neg hne, h]

theorem decoded_unreadable {d : AccountData} (hne : ¬ d.isEmpty = true)
    (h : ∀ f, readFiber d ≠ .ok f) : decoded d = .unreadable := by
  rw [decoded, if_neg hne]
  cases hread : readFiber d with
  | ok f => exact absurd hread (h f)
  | error err => rfl

theorem stored_congr {w w' : Ledger} (h : ∀ k, (w' k).data = (w k).data) : stored w' = stored w := by
  funext k
  rw [stored, stored, h k]

theorem stored_setData (w : Ledger) (k : Pubkey) (d : AccountData) :
    stored (w.setData k d) = Function.update (stored w) k (decoded d) := by
  funext j
  by_cases hj : j = k
  · subst hj
    simp [stored]
  · simp [stored, hj]

/-- A write records the state it is given, whatever it is written over. -/
theorem writeFiber_stored {w w' : Ledger} {k : Pubkey} {f : Fiber} (h : writeFiber w k f = .ok w') :
    stored w' = Function.update (stored w) k (.fiber f) := by
  obtain ⟨b, out, -, rfl, hout, -⟩ := writeFiber_eq_ok h
  have hread : readFiber (.bytes out) = .ok f := Fiber.tryDeserialize_write hout
  rw [stored_setData, decoded_of_readFiber hread]

theorem initializeFiber_stored {e : Env} {a : CreateArgs} {w w' : Ledger}
    (h : initializeFiber e a w = .ok w') :
    ∃ compiled, compileToBytes a.order a.instruction = .ok compiled ∧
      stored w' = Function.update (stored w) a.fiber
        (.fiber (firstState a.thread compiled a.priorityFee a.lookupTables)) := by
  simp only [initializeFiber, bind_eq_ok, require_eq_ok, exists_and_left, exists_const] at h
  obtain ⟨-, -, -, w1, h1, w2, h2, compiled, hcompiled, h3⟩ := h
  refine ⟨compiled, hcompiled, ?_⟩
  simp only [Ledger.allocate, bind_eq_ok, require_eq_ok, exists_and_left, exists_const,
    pure_eq_ok] at h1
  obtain ⟨-, rfl⟩ := h1
  have hassign : stored w2 =
      stored (w.setData a.fiber (.bytes (List.replicate space 0))) := by
    unfold Ledger.assign at h2
    split_ifs at h2
    · rw [Except.ok.inj h2]
    · rw [← Except.ok.inj h2]
      exact stored_congr fun k => by simp
  rw [writeFiber_stored h3, hassign, stored_setData, Function.update_idem]
  rfl

theorem sweepFiberLamports_data {w w' : Ledger} {fiber thread : Pubkey}
    (h : sweepFiberLamports w fiber thread = .ok w') :
    ∃ b, (w fiber).data = .bytes b ∧ (w' fiber).data = .bytes (sweptData b) := by
  simp only [sweepFiberLamports, bind_eq_ok, require_eq_ok, exists_and_left, exists_const] at h
  obtain ⟨-, w1, h1, w2, h2, h3⟩ := h
  obtain ⟨rfl, -⟩ := Ledger.writeLamports_eq_ok h1
  obtain ⟨rfl, -⟩ := Ledger.writeLamports_eq_ok h2
  split at h3
  · rename_i b hb
    obtain ⟨rfl, -⟩ := Ledger.writeData_eq_ok h3
    exact ⟨b, by simpa using hb, by simp⟩
  · exact absurd h3 (by simp)

/-- A sweep keeps the length of the data, so the account is not empty afterwards. -/
theorem sweepFiberLamports_stored {w w' : Ledger} {fiber thread : Pubkey} {f : Fiber}
    (hread : readFiber (w fiber).data = .ok f) (h : sweepFiberLamports w fiber thread = .ok w') :
    stored w' = Function.update (stored w) fiber .unreadable := by
  have hsweeps := sweepFiberLamports_eq_ok h
  obtain ⟨b, hb, hb'⟩ := sweepFiberLamports_data h
  have hne : ¬ (w' fiber).data.isEmpty = true := by
    intro he
    have hb0 : b.length = 0 := by simpa [AccountData.isEmpty, hb', ← List.length_eq_zero_iff] using he
    have hempty : (w fiber).data.isEmpty = true := by
      simpa [AccountData.isEmpty, hb, ← List.length_eq_zero_iff] using hb0
    exact readFiber_of_isEmpty hempty f hread
  funext k
  by_cases hk : k = fiber
  · subst hk
    rw [Function.update_self]
    exact decoded_unreadable hne hsweeps.unreadable
  · rw [Function.update_of_ne hk, stored, stored, hsweeps.data k hk]

/-- The step lemma of the refinement: what an instruction does to the bytes is what it
records in the store. -/
theorem exec_records {e : Env} {ix : Ix} {w w' : Ledger} (h : exec e ix w = .ok w') :
    record (stored w) ix = .ok (stored w') := by
  cases ix with
  | create a =>
    simp only [exec, create, bind_eq_ok, require_eq_ok, exists_and_left, exists_const] at h
    obtain ⟨htables, h⟩ := h
    split at h
    · rename_i hempty
      obtain ⟨compiled, hcompiled, hw'⟩ := initializeFiber_stored h
      have hslot : stored w a.fiber = .empty := if_pos hempty
      simp [record, require, Ix.lookupTables, htables, hslot, createdState, hcompiled, hw']
    · simp only [bind_eq_ok] at h
      obtain ⟨compiled, hcompiled, f, hread, f', hf', h⟩ := h
      have hslot : stored w a.fiber = .fiber f := decoded_of_readFiber hread
      simp [record, require, Ix.lookupTables, htables, hslot, createdState, hcompiled, hf',
        writeFiber_stored h]
  | update a =>
    simp only [exec, update, bind_eq_ok, require_eq_ok, exists_and_left, exists_const] at h
    obtain ⟨-, htables, h⟩ := h
    split at h
    · rename_i hempty
      simp only [bind_eq_ok] at h
      obtain ⟨ix, hix, h⟩ := h
      obtain ⟨compiled, hcompiled, hw'⟩ := initializeFiber_stored h
      have hslot : stored w a.fiber = .empty := if_pos hempty
      simp [record, require, Ix.lookupTables, htables, hslot, updatedState, hix, hcompiled, hw']
    · simp only [bind_eq_ok] at h
      obtain ⟨f, hread, f', hf', h⟩ := h
      have hslot : stored w a.fiber = .fiber f := decoded_of_readFiber hread
      simp [record, require, Ix.lookupTables, htables, hslot, updatedState, hf', writeFiber_stored h]
  | close a =>
    simp only [exec, close, bind_eq_ok, require_eq_ok, exists_and_left, exists_const] at h
    obtain ⟨f, hread, -, h⟩ := h
    have hslot : stored w a.fiber = .fiber f := decoded_of_readFiber hread
    simp [record, require, Ix.lookupTables, hslot, Slot.read, sweepFiberLamports_stored hread h]
  | swap a =>
    simp only [exec, swap, bind_eq_ok, require_eq_ok, exists_and_left, exists_const] at h
    obtain ⟨source, hs, -, target, ht, -, w1, h1, h2⟩ := h
    have hsource : stored w a.source = .fiber source := decoded_of_readFiber hs
    have htarget : stored w a.target = .fiber target := decoded_of_readFiber ht
    have hread : ∃ f, readFiber (w1 a.source).data = .ok f := by
      obtain ⟨b, out, -, rfl, hout, -⟩ := writeFiber_eq_ok h1
      by_cases hk : a.source = a.target
      · exact ⟨_, by rw [hk]; simpa [readFiber] using Fiber.tryDeserialize_write hout⟩
      · exact ⟨source, by simpa [hk] using hs⟩
    obtain ⟨f, hread⟩ := hread
    simp [record, require, Ix.lookupTables, hsource, htarget, Slot.read,
      sweepFiberLamports_stored hread h2, writeFiber_stored h1]

theorem collect_stored (w : Ledger) (k : Pubkey) :
    stored w.collect k = stored w k ∨ stored w.collect k = .empty := by
  by_cases hl : (w k).lamports = 0
  · right
    simp [stored, Ledger.collect, hl, Account.vacant, decoded, AccountData.isEmpty]
  · left
    simp [stored, Ledger.collect, hl]

/-- The simulation: each step of the program is a step of the store. -/
theorem ownStep_storeStep {e : Env} {threads : Set Pubkey} {w w' : Ledger} {ev : Event}
    (h : OwnStep e threads w ev w') : StoreStep (stored w) ev (stored w') := by
  obtain ⟨hown, hstep⟩ := h
  cases ev with
  | instruction ix => exact exec_records hstep.2
  | foreign => exact absurd rfl hown
  | endOfTransaction =>
    intro k
    rw [hstep]
    exact collect_stored w k

/-! ## What a record keeps -/

theorem Slot.Becomes.refl (b : Slot) : b.Becomes b := by
  cases b with
  | empty => trivial
  | fiber f => exact rfl
  | unreadable => exact rfl

theorem Slot.Becomes.trans {a b c : Slot} (h : a.Becomes b) (h' : b.Becomes c) : a.Becomes c := by
  cases a with
  | empty => trivial
  | unreadable =>
    have hb : b = .unreadable := h
    rw [hb] at h'
    exact h'
  | fiber f =>
    cases b with
    | empty => exact absurd h id
    | unreadable =>
      have hc : c = .unreadable := h'
      rw [hc]
      trivial
    | fiber g =>
      cases c with
      | empty => exact absurd h' id
      | unreadable => trivial
      | fiber g' => exact Eq.trans h' h

theorem update_becomes {s : Store} {k : Pubkey} {b : Slot} (h : (s k).Becomes b) (j : Pubkey) :
    (s j).Becomes (Function.update s k b j) := by
  by_cases hj : j = k
  · subst hj
    simpa using h
  · rw [Function.update_of_ne hj]
    exact Slot.Becomes.refl _

theorem Bounded.update {s : Store} (hs : Bounded s) {k : Pubkey} {b : Slot}
    (hb : ∀ f, b = .fiber f → f.lookupTables.length ≤ maxLookupTablesPerFiber) :
    Bounded (Function.update s k b) := by
  intro j f hf
  by_cases hj : j = k
  · subst hj
    rw [Function.update_self] at hf
    exact hb f hf
  · rw [Function.update_of_ne hj] at hf
    exact hs j f hf

/-- A fiber that another replaces: of the same shape, and only the new shape takes
lookup tables. -/
structure Replaces (tables : List Pubkey) (f f' : Fiber) : Prop where
  shape : f'.isLegacy = f.isLegacy
  refused : f.isLegacy = true → tables = []
  tables : f'.lookupTables = tables ∨ f'.lookupTables = f.lookupTables

theorem recreated_replaces {a : CreateArgs} {compiled : List UInt8} {f f' : Fiber}
    (h : recreated a compiled f = .ok f') : Replaces a.lookupTables f f' := by
  cases f with
  | legacy s =>
    simp only [recreated, bind_eq_ok, require_eq_ok, exists_and_left, exists_const,
      pure_eq_ok] at h
    obtain ⟨htables, rfl⟩ := h
    exact ⟨rfl, fun _ => htables, Or.inr rfl⟩
  | v1 s =>
    rw [← pure_eq_ok.mp h]
    exact ⟨rfl, by simp [Fiber.isLegacy], Or.inl rfl⟩

theorem updated_replaces {a : UpdateArgs} {f f' : Fiber} (h : updated a f = .ok f') :
    Replaces (a.lookupTables.getD []) f f' := by
  cases f with
  | legacy s =>
    simp only [updated, bind_eq_ok, require_eq_ok, exists_and_left, exists_const, pure_eq_ok] at h
    obtain ⟨htables, -, -, rfl⟩ := h
    exact ⟨rfl, fun _ => htables, Or.inr rfl⟩
  | v1 s =>
    simp only [updated, bind_eq_ok, pure_eq_ok] at h
    obtain ⟨-, -, rfl⟩ := h
    refine ⟨rfl, by simp [Fiber.isLegacy], ?_⟩
    cases htables : a.lookupTables with
    | none => exact Or.inr (by simp [Fiber.lookupTables])
    | some l => exact Or.inl (by simp [Fiber.lookupTables])

theorem swapped_replaces (source f : Fiber) : Replaces [] f (swapped source f) := by
  cases f with
  | legacy s => exact ⟨rfl, fun _ => rfl, Or.inr rfl⟩
  | v1 s => exact ⟨rfl, fun _ => rfl, Or.inr rfl⟩

theorem Replaces.becomes {tables : List Pubkey} {f f' : Fiber} (h : Replaces tables f f') :
    (Slot.fiber f).Becomes (.fiber f') := h.shape

theorem Replaces.bounded {tables : List Pubkey} {f f' : Fiber} (h : Replaces tables f f')
    (htables : tables.length ≤ maxLookupTablesPerFiber)
    (hf : f.lookupTables.length ≤ maxLookupTablesPerFiber) :
    f'.lookupTables.length ≤ maxLookupTablesPerFiber := by
  rcases h.tables with ht | ht
  · rw [ht]
    exact htables
  · rw [ht]
    exact hf

/-- How an instruction finds its target and leaves it: a first state over an empty
account, or a fiber that replaces the one before. -/
def Stores (tables : List Pubkey) (b : Slot) (f' : Fiber) : Prop :=
  (b = .empty ∧ f'.lookupTables = tables) ∨ ∃ f, b = .fiber f ∧ Replaces tables f f'

theorem Stores.becomes {tables : List Pubkey} {b : Slot} {f' : Fiber} (h : Stores tables b f') :
    b.Becomes (.fiber f') := by
  rcases h with ⟨rfl, -⟩ | ⟨f, rfl, h⟩
  · trivial
  · exact h.becomes

theorem Stores.bounded {tables : List Pubkey} {s : Store} {k : Pubkey} {f' : Fiber}
    (h : Stores tables (s k) f') (htables : tables.length ≤ maxLookupTablesPerFiber)
    (hs : Bounded s) : Bounded (Function.update s k (.fiber f')) := by
  refine hs.update fun g hg => ?_
  obtain rfl := Slot.fiber.inj hg
  rcases h with ⟨-, ht⟩ | ⟨f, hf, h⟩
  · rw [ht]
    exact htables
  · exact h.bounded htables (hs k f hf)

theorem createdState_stores {a : CreateArgs} {b : Slot} {f' : Fiber}
    (h : createdState a b = .ok f') : Stores a.lookupTables b f' := by
  cases b with
  | empty =>
    simp only [createdState, bind_eq_ok, pure_eq_ok] at h
    obtain ⟨compiled, -, rfl⟩ := h
    exact Or.inl ⟨rfl, rfl⟩
  | fiber f =>
    simp only [createdState, bind_eq_ok] at h
    obtain ⟨compiled, -, h⟩ := h
    exact Or.inr ⟨f, rfl, recreated_replaces h⟩
  | unreadable => exact absurd h (by simp [createdState])

theorem updatedState_stores {a : UpdateArgs} {b : Slot} {f' : Fiber}
    (h : updatedState a b = .ok f') : Stores (a.lookupTables.getD []) b f' := by
  cases b with
  | empty =>
    simp only [updatedState, bind_eq_ok, pure_eq_ok] at h
    obtain ⟨ix, -, compiled, -, rfl⟩ := h
    exact Or.inl ⟨rfl, rfl⟩
  | fiber f => exact Or.inr ⟨f, rfl, updated_replaces h⟩
  | unreadable => exact absurd h (by simp [updatedState])

theorem Slot.read_eq_ok {b : Slot} {f : Fiber} : b.read = .ok f ↔ b = .fiber f := by
  cases b <;> simp [Slot.read]

/-- What one record keeps, for all accounts. -/
structure Kept (ix : Ix) (s s' : Store) : Prop where
  becomes : ∀ k, (s k).Becomes (s' k)
  bounded : Bounded s → Bounded s'
  refused : ∀ f, s ix.target = .fiber f → f.isLegacy = true → ix.lookupTables = []

theorem Stores.kept (ix : Ix) {s : Store} {f' : Fiber}
    (h : Stores ix.lookupTables (s ix.target) f')
    (htables : ix.lookupTables.length ≤ maxLookupTablesPerFiber) :
    Kept ix s (Function.update s ix.target (.fiber f')) := by
  refine ⟨update_becomes h.becomes, h.bounded htables, fun f hf hlegacy => ?_⟩
  rcases h with ⟨hempty, -⟩ | ⟨g, hg, h⟩
  · rw [hf] at hempty
    exact absurd hempty (by simp)
  · rw [hf] at hg
    obtain rfl := Slot.fiber.inj hg
    exact h.refused hlegacy

theorem close_becomes {s : Store} {k : Pubkey} {f : Fiber} (h : s k = .fiber f) (j : Pubkey) :
    (s j).Becomes (Function.update s k .unreadable j) :=
  update_becomes (by rw [h]; trivial) j

/-- The step lemma on the store. -/
theorem record_kept {ix : Ix} {s s' : Store} (h : record s ix = .ok s') : Kept ix s s' := by
  simp only [record, bind_eq_ok, require_eq_ok, exists_and_left, exists_const] at h
  obtain ⟨htables, h⟩ := h
  cases ix with
  | create a =>
    simp only [bind_eq_ok, pure_eq_ok] at h
    obtain ⟨f', hf', rfl⟩ := h
    exact Stores.kept (.create a) (createdState_stores hf') htables
  | update a =>
    simp only [bind_eq_ok, pure_eq_ok] at h
    obtain ⟨f', hf', rfl⟩ := h
    exact Stores.kept (.update a) (updatedState_stores hf') htables
  | close a =>
    simp only [bind_eq_ok, pure_eq_ok, Slot.read_eq_ok] at h
    obtain ⟨f, hf, rfl⟩ := h
    exact ⟨close_becomes hf, fun hs => hs.update (by simp), fun _ _ _ => rfl⟩
  | swap a =>
    simp only [bind_eq_ok, pure_eq_ok, Slot.read_eq_ok] at h
    obtain ⟨source, hs, target, ht, rfl⟩ := h
    have hstores : Stores [] (s a.target) (swapped source target) :=
      Or.inr ⟨target, ht, swapped_replaces source target⟩
    obtain ⟨f, hf⟩ : ∃ f, Function.update s a.target (.fiber (swapped source target)) a.source =
        .fiber f := by
      by_cases hk : a.source = a.target
      · exact ⟨_, by rw [hk, Function.update_self]⟩
      · exact ⟨source, by rw [Function.update_of_ne hk, hs]⟩
    refine ⟨fun k => (update_becomes hstores.becomes k).trans (close_becomes hf k), fun hb => ?_,
      fun _ _ _ => rfl⟩
    exact (hstores.bounded (Nat.zero_le _) hb).update (by simp)

theorem storeStep_bounded {s s' : Store} {ev : Event} (h : StoreStep s ev s') (hs : Bounded s) :
    Bounded s' := by
  cases ev with
  | instruction ix => exact (record_kept h).bounded hs
  | foreign => exact absurd h id
  | endOfTransaction =>
    intro k f hf
    rcases h k with hk | hk
    · exact hs k f (by rw [← hk]; exact hf)
    · rw [hk] at hf
      exact absurd hf (by simp)

/-- The run lemma: over instructions alone every account keeps its shape. -/
theorem run_becomes {s s' : Store} {ixs : List Ix}
    (h : Run StoreStep s (ixs.map .instruction) s') (k : Pubkey) : (s k).Becomes (s' k) := by
  induction ixs generalizing s with
  | nil =>
    cases h with
    | nil => exact Slot.Becomes.refl _
  | cons ix ixs ih =>
    cases h with
    | cons ha hr => exact ((record_kept ha).becomes k).trans (ih hr)

/-- The format of fiber accounts over whole runs, from accounts that are empty or hold
fibers with at most four lookup tables, as every legacy fiber does. The run is one of
the store, so each account decodes to what was recorded last. No fiber ever holds more
than four lookup tables. From any reached ledger on, instructions leave every fiber in
its shape until it is closed, and none brings lookup tables to a legacy fiber. -/
theorem fiber_format_stable {e : Env} {threads : Set Pubkey} {w₀ w : Ledger}
    {events : List Event} (h₀ : Bounded (stored w₀)) (h : Run (OwnStep e threads) w₀ events w) :
    Run StoreStep (stored w₀) events (stored w) ∧ Bounded (stored w) ∧
      ∀ (ixs : List Ix) w', Run (OwnStep e threads) w (ixs.map .instruction) w' →
        (∀ k, (stored w k).Becomes (stored w' k)) ∧
        ∀ ix w'', exec e ix w' = .ok w'' → record (stored w') ix = .ok (stored w'') ∧
          ∀ f, stored w' ix.target = .fiber f → f.isLegacy = true → ix.lookupTables = [] := by
  have hrun : Run StoreStep (stored w₀) events (stored w) :=
    h.refine fun _ _ _ hstep => ownStep_storeStep hstep
  refine ⟨hrun, hrun.invariant (fun _ _ _ hs hstep => storeStep_bounded hstep hs) h₀,
    fun ixs w' h' => ⟨?_, fun ix w'' hexec => ?_⟩⟩
  · exact run_becomes (h'.refine fun _ _ _ hstep => ownStep_storeStep hstep)
  · have hrecord := exec_records hexec
    exact ⟨hrecord, (record_kept hrecord).refused⟩

/-! ## A legacy fiber -/

/-- A legacy fiber of thread 1 with leftovers of an earlier state behind it. -/
def legacyState : FiberState := ⟨1, [1, 2, 3], 0, 2, 5⟩

def legacyBytes : List UInt8 :=
  FiberState.discriminator ++ (FiberState.codec.enc legacyState).getD [] ++ List.replicate 1021 9

def legacyLedger : Ledger := fun k =>
  if k = sampleEnv.pubkey 1 0 then ⟨8500000, fiberProgram, .bytes legacyBytes⟩ else Account.vacant

/-- Thread 1 updates its fiber 0, and brings no lookup tables. -/
def sampleUpdate : UpdateArgs :=
  ⟨1, sampleEnv.pubkey 1 0, 0, some (sampleMemo 1), some 7, none, insertionOrder⟩

set_option maxRecDepth 20000 in
theorem decoded_legacyBytes : legacyBytes.length = 8 + FiberState.initSpace ∧
    decoded (.bytes legacyBytes) = .fiber (.legacy legacyState) :=
  ⟨by decide +kernel, decoded_of_readFiber (by decide +kernel)⟩

theorem legacyLedger_bounded : Bounded (stored legacyLedger) := by
  intro k f hf
  by_cases hk : k = sampleEnv.pubkey 1 0
  · have hslot : stored legacyLedger k = .fiber (.legacy legacyState) := by
      rw [stored, legacyLedger, if_pos hk]
      exact decoded_legacyBytes.2
    rw [hslot] at hf
    rw [← Slot.fiber.inj hf]
    exact Nat.zero_le _
  · have hslot : stored legacyLedger k = .empty := by
      rw [stored, legacyLedger, if_neg hk]
      rfl
    rw [hslot] at hf
    exact absurd hf (by simp)

set_option maxRecDepth 20000 in
theorem legacy_format_after_update :
    ∃ w, Run (OwnStep sampleEnv sampleThreads) legacyLedger
        [.instruction (.update sampleUpdate)] w ∧ Bounded (stored w) ∧
      (stored legacyLedger (sampleEnv.pubkey 1 0)).Becomes (stored w (sampleEnv.pubkey 1 0)) := by
  have hrun : (exec sampleEnv (.update sampleUpdate) legacyLedger).map (fun _ => ()) = .ok () := by
    decide +kernel
  obtain ⟨w, hw, -⟩ := map_eq_ok.mp hrun
  have hr : Run (OwnStep sampleEnv sampleThreads) legacyLedger
      [.instruction (.update sampleUpdate)] w :=
    .cons ⟨by simp, Or.inl rfl, hw⟩ (.nil w)
  have hnil : Run (OwnStep sampleEnv sampleThreads) legacyLedger [] legacyLedger := .nil _
  have hstart := fiber_format_stable legacyLedger_bounded hnil
  exact ⟨w, hr, (fiber_format_stable legacyLedger_bounded hr).2.1,
    (hstart.2.2 [.update sampleUpdate] w hr).1 _⟩

end Antegen.FiberProgram
