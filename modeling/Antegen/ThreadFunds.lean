import Antegen.LedgerSupply
import Antegen.ThreadClose
import Antegen.ThreadFormat

/-!
# Funds of a thread

`thread_withdraw` lets the authority take what is above the rent of the serialized
thread, and `thread_delete` lets the admin take everything from any account of the
program and zeroes its data. Beside closing they are the ways in which lamports leave a
thread on request. Every instruction leaves the sum of all balances as it is, and stores
or removes only the thread that it is about.
-/
namespace Antegen

@[simp] theorem mapError_eq_ok {ε ε' α : Type} {f : ε → ε'} {x : Except ε α} {a : α} :
    x.mapError f = .ok a ↔ x = .ok a := by
  cases x <;> simp [Except.mapError]

namespace ThreadProgram

open Ledger

/-! ## Withdrawal and deletion -/

/-- `WithdrawalTooLarge`, beside the errors that the other instructions have. -/
inductive WithdrawError
  | other (e : Error)
  | withdrawalTooLarge
  deriving DecidableEq, Repr

/-- The accounts and the amount, and the name that the thread account stores. -/
structure ThreadWithdrawArgs where
  authority : Pubkey
  payTo : Pubkey
  thread : Pubkey
  amount : ℕ
  name : String

/-- Rent of the serialized thread, which is shorter than its account. -/
def minimumRent (e : Env) (name : String) (t : Thread) : ℕ :=
  e.minimumBalance (8 + ThreadRecord.size ⟨t, name, ""⟩)

/-- `checked_sub` and `+=` panic; the authority may take all but more than the rent. -/
def threadWithdraw (e : Env) (a : ThreadWithdrawArgs) (w : Ledger) :
    Except WithdrawError Ledger := do
  let t ← (w.loadThread a.thread).mapError .other
  (checkSeeds e a.thread t).mapError .other
  (require (a.authority = t.authority) .constraint).mapError .other
  (require (a.amount ≤ (w a.thread).lamports) .panic).mapError .other
  let postBalance := (w a.thread).lamports - a.amount
  if minimumRent e a.name t < postBalance then do
    let w ← (w.writeLamports threadProgram a.thread postBalance).mapError .other
    (require ((w a.payTo).lamports + a.amount < 2 ^ 64) .panic).mapError .other
    let w ← (w.writeLamports threadProgram a.payTo ((w a.payTo).lamports + a.amount)).mapError
      .other
    (w.exitThread a.thread t).mapError .other
  else .error .withdrawalTooLarge

structure ThreadDeleteArgs where
  admin : Pubkey
  config : ThreadConfig
  thread : Pubkey

/-- `fill(0)` over the data of an account. -/
def zeroed : AccountData → AccountData
  | .bytes b => .bytes (List.replicate b.length 0)
  | .thread _ => .bytes (List.replicate threadSpace 0)

/-- Only the admin is checked; the account may be any of the program's. -/
def threadDelete (a : ThreadDeleteArgs) (w : Ledger) : Result Ledger := do
  require (a.admin = a.config.admin) (.thread .invalidConfigAdmin)
  let lamports := (w a.thread).lamports
  let w ← w.writeLamports threadProgram a.thread 0
  require ((w a.admin).lamports + lamports < 2 ^ 64) .panic
  let w ← w.writeLamports threadProgram a.admin ((w a.admin).lamports + lamports)
  w.writeData threadProgram a.thread (zeroed (w a.thread).data)

theorem threadWithdraw_eq_ok {e : Env} {a : ThreadWithdrawArgs} {w w' : Ledger}
    (h : threadWithdraw e a w = .ok w') :
    ∃ t, w.threadAt a.thread = some t ∧ a.authority = t.authority ∧
      minimumRent e a.name t + a.amount < (w a.thread).lamports ∧
      w' = w.moveLamports a.thread a.payTo a.amount := by
  simp only [threadWithdraw, bind_eq_ok, mapError_eq_ok, require_eq_ok, exists_and_left,
    exists_const, loadThread_eq_ok, checkSeeds] at h
  obtain ⟨t, ht, -, hauthority, hle, h⟩ := h
  split_ifs at h with hrent
  · simp only [bind_eq_ok, mapError_eq_ok, require_eq_ok, exists_and_left, exists_const] at h
    obtain ⟨u, hu, -, v, hv, h⟩ := h
    obtain ⟨rfl, -⟩ := writeLamports_eq_ok hu
    obtain ⟨rfl, -⟩ := writeLamports_eq_ok hv
    obtain ⟨howner, hdata⟩ := threadAt_eq_some.mp ht
    refine ⟨t, ht, hauthority, by omega, ?_⟩
    rcases exitThread_threadAt h with ⟨-, rfl⟩ | ⟨-, rfl⟩
    · rfl
    · have hsame : (w.moveLamports a.thread a.payTo a.amount a.thread).data = .thread t := by
        simpa [moveLamports] using hdata
      exact (congrArg _ hsame.symm).trans (setData_self _ _)

theorem threadDelete_eq_ok {a : ThreadDeleteArgs} {w w' : Ledger}
    (h : threadDelete a w = .ok w') :
    a.admin = a.config.admin ∧ ∃ b,
      w' = (w.moveLamports a.thread a.admin (w a.thread).lamports).setData a.thread (.bytes b) := by
  simp only [threadDelete, bind_eq_ok, require_eq_ok, exists_and_left, exists_const] at h
  obtain ⟨hadmin, u, hu, -, v, hv, h⟩ := h
  obtain ⟨rfl, -⟩ := writeLamports_eq_ok hu
  obtain ⟨rfl, -⟩ := writeLamports_eq_ok hv
  obtain ⟨rfl, -⟩ := writeData_eq_ok h
  refine ⟨hadmin, ?_⟩
  simp only [moveLamports, Nat.sub_self]
  cases hd : (w a.thread).data with
  | bytes b => exact ⟨List.replicate b.length 0, by simp [zeroed, hd]⟩
  | thread t => exact ⟨List.replicate threadSpace 0, by simp [zeroed, hd]⟩

/-! ## What each instruction leaves as it was -/

theorem prefundFiber_quiet {e : Env} {w w' : Ledger} {thread fiber : Pubkey}
    (h : prefundFiber e w thread fiber = .ok w') : Quiet w w' := by
  unfold prefundFiber at h
  split_ifs at h
  · simp only [bind_eq_ok, require_eq_ok, exists_and_left, exists_const] at h
    obtain ⟨hle, u, hu, -, h⟩ := h
    obtain ⟨rfl, -⟩ := writeLamports_eq_ok hu
    obtain ⟨rfl, -⟩ := writeLamports_eq_ok h
    exact moveLamports_quiet hle fiber
  · obtain rfl := Except.ok.inj h
    exact Quiet.refl w

theorem topUp_quiet {w w' : Ledger} {payer account : Pubkey} {rent : ℕ}
    (h : topUp w payer account rent = .ok w') : Quiet w w' := by
  unfold topUp at h
  split_ifs at h
  · obtain rfl := Except.ok.inj h
    exact Quiet.refl w
  · exact transfer_quiet h

/-- A new thread account holds zeros until the exit. -/
theorem initIfNeeded_quiet {e : Env} {w w' : Ledger} {payer thread : Pubkey}
    (h : initIfNeeded e w payer thread = .ok w') : Quiet w w' := by
  unfold initIfNeeded at h
  split_ifs at h
  · simp only [bind_eq_ok] at h
    obtain ⟨u, hu, v, hv, h⟩ := h
    exact (topUp_quiet hu).trans ((allocate_quiet hv).trans (assign_quiet (allocate_data hv) h))
  · simp only [bind_eq_ok, require_eq_ok, exists_and_left, exists_const, pure_eq_ok] at h
    obtain ⟨-, -, -, rfl⟩ := h
    exact Quiet.refl w

theorem setupNonce_quiet {e : Env} {a : ThreadCreateArgs} {w w' : Ledger} {nonce : Pubkey}
    (h : setupNonce e a w = .ok (w', nonce)) : Quiet w w' := by
  unfold setupNonce at h
  split at h
  · simp only [Except.ok.injEq, Prod.mk.injEq] at h
    obtain ⟨rfl, -⟩ := h
    exact Quiet.refl w
  · simp only [bind_eq_ok, createNonceAccount, require_eq_ok, exists_and_left, exists_const,
      pure_eq_ok, Prod.mk.injEq] at h
    obtain ⟨recent, -, rent, -, w', ⟨-, u, hu, v, hv, h⟩, rfl, -⟩ := h
    exact (allocate_quiet hu).trans ((transfer_quiet hv).trans
      (writeData_quiet threadProgram_ne_systemProgram.symm h))

theorem createFirstFiber_quiet {e : Env} {a : ThreadCreateArgs} {w w' : Ledger}
    (h : createFirstFiber e a w = .ok w') : Quiet w w' := by
  unfold createFirstFiber at h
  split at h
  · obtain rfl := Except.ok.inj h
    exact Quiet.refl w
  · simp only [bind_eq_ok, require_eq_ok, exists_and_left, exists_const] at h
    obtain ⟨-, fiber, -, -, u, hu, h⟩ := h
    exact (prefundFiber_quiet hu).trans (FiberProgram.create_quiet h)

/-- The data of a thread are not those of a fiber. -/
theorem ne_of_readFiber {w : Ledger} {thread k : Pubkey} {t : Thread}
    (ht : w.threadAt thread = some t) {f : Fiber}
    (hf : FiberProgram.readFiber (w k).data = .ok f) : k ≠ thread := by
  rintro rfl
  rw [FiberProgram.threadAt_of_readFiber hf] at ht
  exact absurd ht (by simp)

theorem fiberClose_quiet {w w' : Ledger} {thread fiber : Pubkey} {t : Thread}
    (ht : w.threadAt thread = some t)
    (h : FiberProgram.close ⟨thread, fiber⟩ w = .ok w') : Quiet w w' := by
  obtain ⟨⟨f, hf, -⟩, -⟩ := FiberProgram.close_eq_ok h
  exact FiberProgram.close_quiet (ne_of_readFiber ht hf) h

/-- Whatever precedes the exit of an instruction is quiet. -/
theorem process_quiet {e : Env} {ix : Ix} {w w' : Ledger} (h : process e ix w = .ok w') :
    ∃ t' u, Quiet w u ∧ u.exitThread ix.thread t' = .ok w' := by
  cases ix with
  | threadCreate a =>
    simp only [process, threadCreate, bind_eq_ok, require_eq_ok, exists_and_left, exists_const,
      Prod.exists] at h
    obtain ⟨bump, -, -, u, hu, v, nonce, hv, schedule, -, bytes, -, x, hx, y, hy, h⟩ := h
    exact ⟨_, y, (initIfNeeded_quiet hu).trans ((setupNonce_quiet hv).trans
      ((transfer_quiet hx).trans (createFirstFiber_quiet hy))), h⟩
  | threadUpdate a =>
    simp only [process, threadUpdate, bind_eq_ok] at h
    obtain ⟨t, -, -, -, -, -, t', -, h⟩ := h
    exact ⟨t', w, Quiet.refl w, h⟩
  | fiberCreate a =>
    simp only [process, fiberCreate, bind_eq_ok] at h
    obtain ⟨t, -, -, -, -, -, -, -, u, hu, v, hv, h⟩ := h
    exact ⟨_, v, (prefundFiber_quiet hu).trans (FiberProgram.create_quiet hv), h⟩
  | fiberUpdate a =>
    simp only [process, fiberUpdate, bind_eq_ok] at h
    obtain ⟨t, -, -, -, -, -, -, -, u, hu, v, hv, h⟩ := h
    exact ⟨_, v, (prefundFiber_quiet hu).trans (FiberProgram.update_quiet hv), h⟩
  | fiberClose a =>
    simp only [process, fiberClose, bind_eq_ok, loadThread_eq_ok] at h
    obtain ⟨t, ht, -, -, -, -, -, -, u, hu, h⟩ := h
    exact ⟨_, u, fiberClose_quiet ht hu, h⟩
  | fiberSwap a =>
    simp only [process, fiberSwap, bind_eq_ok, loadThread_eq_ok] at h
    obtain ⟨t, ht, -, -, -, -, -, -, u, hu, h⟩ := h
    obtain ⟨source, -, -, hf, -⟩ := FiberProgram.swap_eq_ok hu
    exact ⟨_, u, FiberProgram.swap_quiet (ne_of_readFiber ht hf) hu, h⟩

theorem process_local {e : Env} {ix : Ix} {w w' : Ledger} (h : process e ix w = .ok w') :
    Local ix.thread w w' := by
  obtain ⟨t', u, hu, hexit⟩ := process_quiet h
  exact (hu.isLocal _).trans (exitThread_local hexit)

theorem closeRemaining_quiet {e : Env} {a : ThreadCloseArgs} {accounts : List Pubkey}
    {ids ids' : List UInt8} {w w' : Ledger} {t : Thread} (ht : w.threadAt a.thread = some t)
    (h : accounts.foldlM (closeRemaining e a) (ids, w) = .ok (ids', w')) : Quiet w w' := by
  induction accounts generalizing ids w with
  | nil =>
    obtain ⟨-, rfl⟩ := Prod.mk.inj (Except.ok.inj h)
    exact Quiet.refl w
  | cons account accounts ih =>
    simp only [List.foldlM_cons, closeRemaining, bind_eq_ok, pure_eq_ok] at h
    obtain ⟨-, ⟨f, -, -, -, pos, -, -, -, u, hu, rfl⟩, h⟩ := h
    have hquiet := fiberClose_quiet ht hu
    exact hquiet.trans (ih ((hquiet.threads _).trans ht) h)

theorem threadClose_local {e : Env} {a : ThreadCloseArgs} {w w' : Ledger}
    (h : threadClose e a w = .ok w') : Local a.thread w w' := by
  simp only [threadClose, bind_eq_ok, require_eq_ok, exists_and_left, exists_const,
    loadThread_eq_ok, Prod.exists] at h
  obtain ⟨-, t, ht, -, -, -, -, -, hne, ids, u, hu, -, h⟩ := h
  refine ((closeRemaining_quiet ht hu).isLocal _).trans ?_
  simp only [closeAccount, bind_eq_ok, checkU64_eq_ok, pure_eq_ok] at h
  obtain ⟨total, ⟨-, rfl⟩, rfl⟩ := h
  refine ⟨fun k hk => threadAt_congr (by simp [hk]) (by simp [hk]), ?_⟩
  exact (supply_congr fun k => by simp [drainLamports]).trans (supply_drainLamports (w := u) hne)

theorem threadWithdraw_quiet {e : Env} {a : ThreadWithdrawArgs} {w w' : Ledger}
    (h : threadWithdraw e a w = .ok w') : Quiet w w' := by
  obtain ⟨t, -, -, hrent, rfl⟩ := threadWithdraw_eq_ok h
  exact moveLamports_quiet (by omega) _

theorem threadDelete_local {a : ThreadDeleteArgs} {w w' : Ledger}
    (h : threadDelete a w = .ok w') : Local a.thread w w' := by
  obtain ⟨-, b, rfl⟩ := threadDelete_eq_ok h
  refine ⟨fun k hk => ?_, ?_⟩
  · rw [threadAt_congr (w := w.moveLamports a.thread a.admin (w a.thread).lamports) (by simp)
      (by simp [hk])]
    exact (moveLamports_quiet le_rfl _).threads k
  · rw [supply_congr (w := w.moveLamports a.thread a.admin (w a.thread).lamports)
      fun k => by simp]
    exact supply_moveLamports le_rfl _

/-! ## Withdrawals -/

/-- What a withdrawal takes from the thread; paid to the thread itself it takes nothing. -/
def ThreadWithdrawArgs.drawn (a : ThreadWithdrawArgs) : ℕ :=
  if a.payTo = a.thread then 0 else a.amount

theorem threadWithdraw_drawn {e : Env} {a : ThreadWithdrawArgs} {w w' : Ledger}
    (h : threadWithdraw e a w = .ok w') :
    (w' a.thread).lamports + a.drawn = (w a.thread).lamports := by
  obtain ⟨t, -, -, hrent, rfl⟩ := threadWithdraw_eq_ok h
  unfold ThreadWithdrawArgs.drawn moveLamports
  by_cases hself : a.payTo = a.thread
  · simp only [hself, setLamports_lamports, if_true]
    omega
  · simp only [setLamports_lamports, if_true, if_neg (Ne.symm hself), if_neg hself]
    omega

/-- Withdrawals are the authority's alone. However many there are, they leave the thread
with more than the rent of its record, so it outlives the end of the transaction, and with
exactly what they did not take. -/
theorem withdrawals_leave_rent {e : Env} {thread : Pubkey} {name : String} {t : Thread}
    {as : List ThreadWithdrawArgs} (has : ∀ a ∈ as, a.thread = thread ∧ a.name = name)
    {w w' : Ledger} (ht : w.threadAt thread = some t)
    (hrent : minimumRent e name t < (w thread).lamports)
    (h : as.foldlM (fun w a => threadWithdraw e a w) w = .ok w') :
    w'.collect.threadAt thread = some t ∧ minimumRent e name t < (w' thread).lamports ∧
      (w' thread).lamports + (as.map ThreadWithdrawArgs.drawn).sum = (w thread).lamports ∧
      ∀ a ∈ as, a.authority = t.authority := by
  induction as generalizing w with
  | nil =>
    obtain rfl := Except.ok.inj h
    have hlive : (w thread).lamports ≠ 0 := by omega
    refine ⟨?_, hrent, by simp, by simp⟩
    rw [threadAt_congr (w := w) (by simp [collect, hlive]) (by simp [collect, hlive]), ht]
  | cons a as ih =>
    simp only [List.foldlM_cons, bind_eq_ok] at h
    obtain ⟨u, hu, h⟩ := h
    rw [List.forall_mem_cons] at has
    obtain ⟨⟨rfl, rfl⟩, has⟩ := has
    have hdrawn := threadWithdraw_drawn hu
    have hquiet := threadWithdraw_quiet hu
    obtain ⟨v, hv, hauthority, hfloor, -⟩ := threadWithdraw_eq_ok hu
    obtain rfl := Option.some.inj (ht.symm.trans hv)
    have hle : a.drawn ≤ a.amount := by
      unfold ThreadWithdrawArgs.drawn
      split_ifs <;> omega
    obtain ⟨hstored, hleft, hsum, hall⟩ :=
      ih has ((hquiet.threads _).trans ht) (by omega) h
    refine ⟨hstored, hleft, ?_, List.forall_mem_cons.mpr ⟨hauthority, hall⟩⟩
    rw [List.map_cons, List.sum_cons]
    omega

/-- Authority 5 withdraws twice, once to the thread itself. -/
theorem withdrawals_leave_rent_sample : ∃ (w w' : Ledger) (t : Thread),
    w.threadAt 1 = some t ∧ minimumRent sampleEnv "a" t < (w' 1).lamports ∧
      (w' 1).lamports + 70000000 = (w 1).lamports := by
  let as : List ThreadWithdrawArgs := [⟨5, 8, 1, 70000000, "a"⟩, ⟨5, 1, 1, 20000000, "a"⟩]
  have hrun : ((threadCreate sampleEnv (sampleCreate (.interval 10 false 0)) payerLedger).map
      fun w => ((w.threadAt 1).map fun t => decide (minimumRent sampleEnv "a" t < (w 1).lamports),
        (as.foldlM (fun w a => threadWithdraw sampleEnv a w) w).map fun _ => ())) =
      .ok (some true, .ok ()) := by
    decide +kernel
  obtain ⟨w, -, hw⟩ := map_eq_ok.mp hrun
  obtain ⟨hfunded, hdraws⟩ := Prod.mk.inj hw
  obtain ⟨t, ht, hrent⟩ := Option.map_eq_some_iff.mp hfunded
  obtain ⟨w', hw', -⟩ := map_eq_ok.mp hdraws
  have has : ∀ a ∈ as, a.thread = 1 ∧ a.name = "a" := by
    intro a ha
    rcases List.mem_pair.mp ha with rfl | rfl <;> exact ⟨rfl, rfl⟩
  obtain ⟨-, hleft, hsum, -⟩ := withdrawals_leave_rent has ht (of_decide_eq_true hrent) hw'
  exact ⟨w, w', t, ht, hleft, hsum⟩

/-! ## Executions -/

/-- An execution is quiet up to the call and local after it. -/
theorem threadExec_around {e : Env} {cpi : Cpi} {a : ExecArgs} {w w' : Ledger}
    {outcome : Outcome} (h : threadExec e cpi a w = .ok (w', outcome)) :
    ∃ ix u v returned, Quiet w u ∧ cpi ix u = .ok (v, returned) ∧ Local a.thread v w' := by
  cases outcome with
  | closePath =>
    obtain ⟨t, ix, called, returned, -, -, -, -, -, hcall, hexit⟩ := threadExec_closePath h
    exact ⟨ix, w, called, returned, Quiet.refl w, hcall, exitThread_local hexit⟩
  | fiber s =>
    obtain ⟨x⟩ := threadExec_fiber h
    refine ⟨x.instruction, x.ready, x.called, x.returned, ?_, x.invoked, ?_⟩
    · have hadvanced := x.advanced
      unfold advanceNonceIfRequired at hadvanced
      split at hadvanced
      · split at hadvanced
        · simp only [advanceNonceAccount, bind_eq_ok] at hadvanced
          obtain ⟨out, -, hwrite⟩ := hadvanced
          exact writeData_quiet threadProgram_ne_systemProgram.symm hwrite
        · exact absurd hadvanced (by simp)
      · rw [← Except.ok.inj hadvanced]
        exact Quiet.refl w
    · have hsettled := x.settled
      refine Local.trans (Quiet.isLocal ?_ _) (exitThread_local x.exited)
      unfold settle at hsettled
      split_ifs at hsettled
      · rw [← Except.ok.inj hsettled]
        exact Quiet.refl _
      · simp only [settlePayments, bind_eq_ok] at hsettled
        obtain ⟨change, -, p, -, forgone, -, hpaid⟩ := hsettled
        exact distributePayments_quiet hpaid

end ThreadProgram

end Antegen
