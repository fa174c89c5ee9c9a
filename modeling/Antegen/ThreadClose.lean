import Antegen.CompileRoundTrip
import Antegen.ThreadRuns

/-!
# Closing a thread

`thread_close` closes the fibers among its remaining accounts one by one, drops each
index from the deserialized list, and then closes the thread. Every thread stores a
compiled `thread_close` of itself, which the close path of an execution calls with the
fibers appended. So a close path that succeeds leaves no thread.
-/
namespace Antegen.ThreadProgram

structure ThreadCloseArgs where
  authority : Pubkey
  closeTo : Pubkey
  thread : Pubkey
  fiberProgram : Option Pubkey
  remainingAccounts : List Pubkey
  deriving DecidableEq, Repr

/-- One pass of the loop over the remaining accounts: the indices that are left and the
ledger. -/
def closeRemaining (e : Env) (a : ThreadCloseArgs) (s : List UInt8 × Ledger) (account : Pubkey) :
    Result (List UInt8 × Ledger) := do
  let (ids, w) := s
  let f ← FiberProgram.readFiber (w account).data
  require (f.thread = a.thread) (.thread .invalidFiberAccount)
  let pos ← ofOption (.thread .invalidFiberAccount)
    (ids.findIdx? fun i => e.pubkey a.thread i = account)
  let _ ← ofOption (.thread .missingFiberAccounts) a.fiberProgram
  let w ← FiberProgram.close ⟨a.thread, account⟩ w
  pure (ids.eraseIdx pos, w)

/-- The `close` constraint: all lamports to the destination, and an empty account of the
system program is left. -/
def closeAccount (w : Ledger) (account destination : Pubkey) : Result Ledger := do
  let total ← checkU64 ((w destination).lamports + (w account).lamports)
  let w := (w.setLamports destination total).setLamports account 0
  pure ((w.setOwner account systemProgram).setData account (.bytes []))

def threadClose (e : Env) (a : ThreadCloseArgs) (w : Ledger) : Result Ledger := do
  require ((w a.closeTo).owner = systemProgram) .accountOwner
  let t ← w.loadThread a.thread
  require (a.fiberProgram.all (· = fiberProgram)) .constraint
  checkAuthority a.authority a.thread t
  checkSeeds e a.thread t
  require (a.thread ≠ a.closeTo) .constraint
  let (ids, w) ← a.remainingAccounts.foldlM (closeRemaining e a) (t.fiberIds, w)
  require (ids = []) (.thread .missingFiberAccounts)
  closeAccount w a.thread a.closeTo

theorem threadClose_isClosed {e : Env} {a : ThreadCloseArgs} {w w' : Ledger}
    (h : threadClose e a w = .ok w') : w'.isClosed a.thread = true := by
  simp only [threadClose, bind_eq_ok, Prod.exists] at h
  obtain ⟨_, -, t, -, _, -, _, -, _, -, _, -, ids, u, -, _, -, h⟩ := h
  simp only [closeAccount, bind_eq_ok, pure_eq_ok] at h
  obtain ⟨total, -, rfl⟩ := h
  simp [Ledger.isClosed, AccountData.isEmpty]

theorem threadAt_of_isClosed {w : Ledger} {k : Pubkey} (h : w.isClosed k = true) :
    w.threadAt k = none := by
  unfold Ledger.isClosed at h
  simp only [Bool.and_eq_true, decide_eq_true_eq] at h
  unfold Ledger.threadAt
  split
  · rw [if_neg]
    rw [h.1]
    exact threadProgram_ne_systemProgram.symm
  · rfl

/-! ## The close instruction of a thread -/

/-- The accounts of an instruction as `thread_close` takes them. The program's own id
stands for an optional account that is missing. -/
def closeArgs (ix : Instruction) : Option ThreadCloseArgs :=
  match ix.accounts with
  | authority :: closeTo :: thread :: program :: remaining =>
    if ix.programId = threadProgram ∧ ix.data = closeThreadDiscriminator then
      some ⟨authority.pubkey, closeTo.pubkey, thread.pubkey,
        if program.pubkey = threadProgram then none else some program.pubkey,
        remaining.map AccountMeta.pubkey⟩
    else none
  | _ => none

/-- The runtime gives a call of `thread_close` to `thread_close`. -/
def Dispatches (e : Env) (cpi : Cpi) : Prop :=
  ∀ ix a w w' returned, closeArgs ix = some a → cpi ix w = .ok (w', returned) →
    threadClose e a w = .ok w'

/-- The thread stores a compiled `thread_close` of itself. -/
def StoresClose (thread : Pubkey) (t : Thread) : Prop :=
  ∃ o authority, compileToBytes o (closeThreadInstruction authority thread) = .ok t.closeFiber

theorem storesClose_of_reachable {e : Env} {thread : Pubkey} {w : Ledger}
    (h : Reachable e thread w) : Holds thread (StoresClose thread) w := by
  refine h.holds (fun u ix u' t' hp hix ht' hu => ?_) fun cpi a u u' s x _ _ hx => ?_
  · subst hix
    rcases process_cases hp ht' with ⟨a, bump, nonce, schedule, closeFiber, rfl, rfl, -, hclose⟩ |
      ⟨a, t, -, ht, hupdate⟩ | ⟨t, ht, hframe⟩
    · exact ⟨a.order, a.authority, hclose⟩
    · obtain ⟨o, authority, hclose⟩ := hu t ht
      refine ⟨o, authority, ?_⟩
      rw [updatedThread_eq hupdate]
      exact hclose
    · obtain ⟨o, authority, hclose⟩ := hu t ht
      refine ⟨o, authority, ?_⟩
      rw [hframe]
      exact hclose
  · obtain ⟨o, authority, hclose⟩ := hx
    obtain ⟨-, -, -, -, -, -, hsame⟩ := x.finished_frame
    refine ⟨o, authority, ?_⟩
    rw [hsame]
    exact hclose

/-- The table of a compiled instruction has at most the keys of the instruction. -/
theorem keyTable_length_le (o : HashOrder) (ix : Instruction) :
    (keyTable o ix).length ≤ ix.accounts.length + 1 := by
  have hsub : keyTable o ix ⊆ ix.programId :: ix.accounts.map AccountMeta.pubkey := by
    intro k hk
    exact List.mem_cons.mpr ((mem_keyTable o ix k).mp hk)
  have hle := (List.subperm_of_subset (keyTable_nodup o ix) hsub).length_le
  simpa using hle

/-- The close path calls `thread_close` of the thread, with its fibers. -/
theorem closeInstruction_succeeds {thread : Pubkey} {t : Thread} (hstores : StoresClose thread t)
    (e : Env) :
    ∃ ix authority, closeInstruction e thread t = .ok ix ∧
      closeArgs ix = some ⟨thread, authority, thread, some fiberProgram,
        t.fiberIds.map fun i => e.pubkey thread i⟩ := by
  obtain ⟨o, authority, hcompile⟩ := hstores
  simp only [compileToBytes, bind_eq_ok, ofOption_eq_ok] at hcompile
  obtain ⟨c, hc, henc⟩ := hcompile
  have hlen : c.accounts.length < 256 := by
    rw [(compileInstruction_spec hc).accounts]
    have hle := keyTable_length_le o (closeThreadInstruction authority thread)
    have hfour : (closeThreadInstruction authority thread).accounts.length = 4 := rfl
    omega
  have hdecompile := decompile_compile hc hlen
  have hprogram : fiberProgram ≠ threadProgram := threadProgram_ne_fiberProgram.symm
  let ix := normalized (closeThreadInstruction authority thread)
  refine ⟨{ ix with
    accounts := ix.accounts ++ t.fiberIds.map fun i => ⟨e.pubkey thread i, false, true⟩ },
    authority, ?_, ?_⟩
  · simp only [closeInstruction, bind_eq_ok, ofOption_eq_ok, pure_eq_ok,
      compiledInstructionCodec.fromSlice_enc henc, Option.some.injEq, exists_eq_left',
      hdecompile, Except.ok.injEq, ix]
  · simp [ix, closeArgs, normalized, closeThreadInstruction, hprogram, Function.comp_def]

/-- Whatever the close path calls is that. -/
theorem closeInstruction_args {e : Env} {thread : Pubkey} {t : Thread} {ix : Instruction}
    (hstores : StoresClose thread t) (h : closeInstruction e thread t = .ok ix) :
    ∃ authority, closeArgs ix = some ⟨thread, authority, thread, some fiberProgram,
      t.fiberIds.map fun i => e.pubkey thread i⟩ := by
  obtain ⟨ix', authority, hix', hargs⟩ := closeInstruction_succeeds hstores e
  rw [h] at hix'
  obtain rfl := Except.ok.inj hix'
  exact ⟨authority, hargs⟩

/-- A close path that succeeds leaves no thread. -/
theorem closePath_closes {e : Env} {cpi : Cpi} {a : ExecArgs} {w w' : Ledger}
    (hreach : Reachable e a.thread w) (hdispatch : Dispatches e cpi)
    (h : threadExec e cpi a w = .ok (w', .closePath)) : w'.threadAt a.thread = none := by
  obtain ⟨t, ix, called, returned, ht, -, -, -, hix, hcall, hexit⟩ := threadExec_closePath h
  obtain ⟨authority, hargs⟩ := closeInstruction_args (storesClose_of_reachable hreach t ht) hix
  have hclosed := threadClose_isClosed (hdispatch _ _ _ _ _ hargs hcall)
  unfold Ledger.exitThread at hexit
  rw [if_pos hclosed] at hexit
  rw [← Except.ok.inj hexit]
  exact threadAt_of_isClosed hclosed

end Antegen.ThreadProgram
