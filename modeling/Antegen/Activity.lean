import Antegen.SelfCpi
import Antegen.ThreadFunds

/-!
# Activity of the whole program

Instructions on many threads, the fiber program's own instructions, executions whose
callees call the programs again, other programs, and ends of transactions, in any order
and nesting. The signatures that an activity has are given; the callee of an execution
has that of the executed thread besides. Seen from one thread, an activity is a run of
that thread, so what holds of every reachable thread holds of all threads at once.
-/
namespace Antegen.ThreadProgram

open Transition Ledger

/-- The accounts that an instruction demands signatures of. -/
def Ix.signers : Ix → List Pubkey
  | threadCreate a => a.authority :: a.payer :: a.nonceAccount.toList
  | threadUpdate a => [a.authority]
  | fiberCreate a => [a.authority]
  | fiberUpdate a => [a.authority]
  | fiberClose a => [a.authority]
  | fiberSwap a => [a.authority]

/-- Steps of other programs: accounts of this one keep owner and data and lose nothing, an
account newly assigned to it holds zeros, and lamports are moved only. -/
structure Foreign (w w' : Ledger) : Prop where
  kept : ∀ k, (w k).owner = threadProgram → (w' k).owner = threadProgram ∧
    (w' k).data = (w k).data ∧ (w k).lamports ≤ (w' k).lamports
  assigned : ∀ k, (w k).owner ≠ threadProgram → (w' k).owner = threadProgram →
    ∃ n, (w' k).data = .bytes (List.replicate n 0)
  balanced : w'.supply = w.supply

/-- What can happen with the signatures of `signed`, while the configuration names admins
of `admins` only. No fiber signs an instruction of the fiber program. -/
inductive Activity (e : Env) (admins : Set Pubkey) : Set Pubkey → Ledger → Ledger → Prop
  | refl {signed : Set Pubkey} (w : Ledger) : Activity e admins signed w w
  | trans {signed : Set Pubkey} {w u w' : Ledger} (first : Activity e admins signed w u)
      (second : Activity e admins signed u w') : Activity e admins signed w w'
  | foreign {signed : Set Pubkey} {w w' : Ledger} (h : Foreign w w') :
      Activity e admins signed w w'
  | fiber {signed : Set Pubkey} {ix : FiberProgram.Ix} {w w' : Ledger}
      (hsigned : ix.signer ∈ signed)
      (hsigner : ∀ f, FiberProgram.readFiber (w ix.signer).data ≠ .ok f)
      (h : FiberProgram.exec e.toEnv ix w = .ok w') : Activity e admins signed w w'
  | instruction {signed : Set Pubkey} {ix : Ix} {w w' : Ledger}
      (hsigned : ∀ k ∈ ix.signers, k ∈ signed) (h : process e ix w = .ok w') :
      Activity e admins signed w w'
  | close {signed : Set Pubkey} {a : ThreadCloseArgs} {w w' : Ledger}
      (hsigned : a.authority ∈ signed) (h : threadClose e a w = .ok w') :
      Activity e admins signed w w'
  | withdraw {signed : Set Pubkey} {a : ThreadWithdrawArgs} {w w' : Ledger}
      (hsigned : a.authority ∈ signed) (h : threadWithdraw e a w = .ok w') :
      Activity e admins signed w w'
  | delete {signed : Set Pubkey} {a : ThreadDeleteArgs} {w w' : Ledger}
      (hadmin : a.config.admin ∈ admins) (hsigned : a.admin ∈ signed)
      (h : threadDelete a w = .ok w') : Activity e admins signed w w'
  | exec {signed : Set Pubkey} {cpi : Cpi} {a : ExecArgs} {w w' : Ledger} {outcome : Outcome}
      (hadmin : a.config.admin ∈ admins) (hsigned : a.executor ∈ signed)
      (hcallee : ∀ ix u u' returned, cpi ix u = .ok (u', returned) →
        Activity e admins (insert a.thread signed) u u')
      (h : threadExec e cpi a w = .ok (w', outcome)) : Activity e admins signed w w'
  | endOfTransaction {signed : Set Pubkey} (w : Ledger) : Activity e admins signed w w.collect

/-- More signatures allow what fewer do. -/
theorem Activity.mono {e : Env} {admins signed more : Set Pubkey} {w w' : Ledger}
    (hmore : signed ⊆ more) (h : Activity e admins signed w w') : Activity e admins more w w' := by
  induction h generalizing more with
  | refl w => exact .refl w
  | trans _ _ ih ih' => exact .trans (ih hmore) (ih' hmore)
  | foreign h => exact .foreign h
  | fiber hsigned hsigner h => exact .fiber (hmore hsigned) hsigner h
  | instruction hsigned h => exact .instruction (fun k hk => hmore (hsigned k hk)) h
  | close hsigned h => exact .close (hmore hsigned) h
  | withdraw hsigned h => exact .withdraw (hmore hsigned) h
  | delete hadmin hsigned h => exact .delete hadmin (hmore hsigned) h
  | exec hadmin hsigned _ h ih =>
    exact .exec hadmin (hmore hsigned)
      (fun ix u u' returned hcall => ih ix u u' returned hcall (Set.insert_subset_insert hmore)) h
  | endOfTransaction w => exact .endOfTransaction w

/-! ## Lamports -/

/-- No activity creates or destroys lamports, so no balance outgrows their sum. -/
theorem Activity.supply_kept {e : Env} {admins signed : Set Pubkey} {w w' : Ledger}
    (h : Activity e admins signed w w') :
    w'.supply = w.supply ∧ ∀ k, (w' k).lamports ≤ w.supply := by
  have hsupply : w'.supply = w.supply := by
    induction h with
    | refl w => rfl
    | trans _ _ ih ih' => exact ih'.trans ih
    | foreign h => exact h.balanced
    | fiber _ hsigner h => exact (FiberProgram.exec_quiet hsigner h).supply
    | instruction _ h => exact (process_local h).supply
    | close _ h => exact (threadClose_local h).supply
    | withdraw _ h => exact (threadWithdraw_quiet h).supply
    | delete _ _ h => exact (threadDelete_local h).supply
    | exec _ _ _ h ih =>
      obtain ⟨ix, u, v, returned, hbefore, hcall, hafter⟩ := threadExec_around h
      exact hafter.supply.trans ((ih ix u v returned hcall).trans hbefore.supply)
    | endOfTransaction w => exact supply_collect w
  exact ⟨hsupply, fun k => hsupply ▸ lamports_le_supply w' k⟩

/-! ## One thread at a time -/

theorem Foreign.threads {w w' : Ledger} (h : Foreign w w') (k : Pubkey) :
    w'.threadAt k = w.threadAt k := by
  by_cases howner : (w k).owner = threadProgram
  · obtain ⟨howner', hdata, -⟩ := h.kept k howner
    exact threadAt_congr (howner'.trans howner.symm) hdata
  · rw [threadAt_of_owner howner]
    by_cases howner' : (w' k).owner = threadProgram
    · obtain ⟨n, hzeros⟩ := h.assigned k howner howner'
      exact threadAt_of_bytes hzeros
    · exact threadAt_of_owner howner'

theorem threadClose_removes {e : Env} {a : ThreadCloseArgs} {w w' : Ledger}
    (h : threadClose e a w = .ok w') : w'.threadAt a.thread = none :=
  threadAt_of_isClosed (threadClose_isClosed h)

theorem threadDelete_removes {a : ThreadDeleteArgs} {w w' : Ledger}
    (h : threadDelete a w = .ok w') : w'.threadAt a.thread = none := by
  obtain ⟨-, b, rfl⟩ := threadDelete_eq_ok h
  exact threadAt_of_bytes (b := b) (by simp)

theorem collect_threadAt (w : Ledger) (k : Pubkey) :
    w.collect.threadAt k = w.threadAt k ∨ w.collect.threadAt k = none := by
  by_cases h : (w k).lamports = 0
  · exact Or.inr (threadAt_of_bytes (b := []) (by simp [collect, h, Account.vacant]))
  · exact Or.inl (threadAt_congr (by simp [collect, h]) (by simp [collect, h]))

/-- A step that the thread takes no part in. -/
theorem other_run {e : Env} {thread : Pubkey} {w w' : Ledger}
    (h : w'.threadAt thread = w.threadAt thread ∨ w'.threadAt thread = none) :
    ∃ events, Run (Step e thread) w events w' :=
  ⟨[.other], .cons h (.nil w')⟩

theorem local_run {e : Env} {thread k : Pubkey} {w w' : Ledger} (h : Local k w w')
    (hremoved : w'.threadAt k = none) : ∃ events, Run (Step e thread) w events w' := by
  by_cases hk : thread = k
  · exact other_run (Or.inr (hk ▸ hremoved))
  · exact other_run (Or.inl (h.threads thread hk))

/-- Seen from one thread, an activity is a run of its life. -/
theorem Activity.run {e : Env} {admins signed : Set Pubkey} {w w' : Ledger}
    (h : Activity e admins signed w w') (thread : Pubkey) :
    ∃ events, Run (Step e thread) w events w' := by
  induction h with
  | refl w => exact ⟨[], .nil w⟩
  | trans _ _ ih ih' =>
    obtain ⟨first, hfirst⟩ := ih
    obtain ⟨second, hsecond⟩ := ih'
    exact ⟨first ++ second, hfirst.append hsecond⟩
  | foreign h => exact other_run (Or.inl (h.threads thread))
  | fiber _ hsigner h =>
    exact other_run (Or.inl ((FiberProgram.exec_quiet hsigner h).threads thread))
  | @instruction _ ix _ w' _ h =>
    by_cases hthread : ix.thread = thread
    · exact ⟨[.instruction ix], .cons ⟨hthread, h⟩ (.nil w')⟩
    · exact other_run (Or.inl ((process_local h).threads thread (Ne.symm hthread)))
  | close _ h => exact local_run (threadClose_local h) (threadClose_removes h)
  | withdraw _ h => exact other_run (Or.inl ((threadWithdraw_quiet h).threads thread))
  | delete _ _ h => exact local_run (threadDelete_local h) (threadDelete_removes h)
  | @exec _ cpi a _ w' outcome _ _ _ h ih =>
    by_cases hthread : a.thread = thread
    · subst hthread
      obtain ⟨t, -, hstep⟩ := exec_step h
      exact ⟨[.exec cpi a t outcome], .cons hstep (.nil w')⟩
    · -- the callee may run instructions on this thread, between two quiet steps
      obtain ⟨ix, u, v, returned, hbefore, hcall, hafter⟩ := threadExec_around h
      obtain ⟨first, hfirst⟩ := other_run (e := e) (Or.inl (hbefore.threads thread))
      obtain ⟨nested, hnested⟩ := ih ix u v returned hcall
      obtain ⟨last, hlast⟩ :=
        other_run (e := e) (Or.inl (hafter.threads thread (Ne.symm hthread)))
      exact ⟨first ++ (nested ++ last), hfirst.append (hnested.append hlast)⟩
  | endOfTransaction w => exact other_run (collect_threadAt w thread)

/-- From a ledger without threads every activity leads to ledgers in which each thread is
one that its own runs reach. -/
theorem Activity.reachable {e : Env} {admins signed : Set Pubkey} {w₀ w : Ledger}
    (h₀ : ∀ k, w₀.threadAt k = none) (h : Activity e admins signed w₀ w) (thread : Pubkey) :
    Reachable e thread w := by
  obtain ⟨events, hrun⟩ := h.run thread
  exact ⟨w₀, events, h₀ thread, hrun⟩

/-! ## A thread that calls itself -/

/-- The small world with thread 1 of authority 5 only. -/
def soloEnv : Env := { sampleEnv with
  threadAddress := fun authority id bump =>
    if authority = 5 ∧ id = [1] ∧ bump = 255 then some 1 else none }

/-- Fiber 0 wipes its own instruction, signed by thread 1. -/
def wiping : Ix :=
  .fiberUpdate ⟨1, 1, soloEnv.pubkey 1 0, 0, none, none, true, none, FiberProgram.insertionOrder⟩

/-- Payer 7 creates thread 1, and executor 9 executes its fiber. -/
def createAndExecute : Result (Ledger × Ledger) := do
  let created ← threadCreate soloEnv (sampleCreate (.interval 10 false 0)) payerLedger
  let executed ← (threadExec soloEnv (selfCpi soloEnv wiping) (sampleArgs 0) created).map Prod.fst
  pure (created, executed)

/-- The creation is signed by authority 5 and payer 7, and the execution by executor 9. -/
theorem createAndExecute_activity {w w' : Ledger} (h : createAndExecute = .ok (w, w')) :
    Activity soloEnv {4} {5, 7} payerLedger w ∧ Activity soloEnv {4} {9} w w' := by
  simp only [createAndExecute, bind_eq_ok, map_eq_ok, pure_eq_ok, Prod.mk.injEq] at h
  obtain ⟨created, hcreated, executed, ⟨⟨w', outcome⟩, hexec, rfl⟩, rfl, rfl⟩ := h
  have hprocess : process soloEnv (.threadCreate (sampleCreate (.interval 10 false 0)))
      payerLedger = .ok created := hcreated
  have hadmin : (sampleArgs 0).config.admin ∈ ({4} : Set Pubkey) := rfl
  refine ⟨.instruction (fun k hk => ?_) hprocess,
    .exec hadmin rfl (fun ix u u' returned hcall => ?_) hexec⟩
  · simpa [Ix.signers, sampleCreate] using hk
  · simp only [selfCpi, bind_eq_ok, require_eq_ok, exists_and_left, exists_const, map_eq_ok,
      Prod.mk.injEq] at hcall
    obtain ⟨-, v, hv, rfl, -⟩ := hcall
    refine .instruction (fun k hk => ?_) hv
    obtain rfl : k = 1 := by simpa [Ix.signers, wiping] using hk
    exact Or.inl rfl

theorem createAndExecute_succeeds : ∃ w w', createAndExecute = .ok (w, w') ∧
    (w.threadAt 1).isSome = true ∧ (w'.threadAt 1).isSome = true := by
  have hrun : createAndExecute.map (fun p => ((p.1.threadAt 1).isSome, (p.2.threadAt 1).isSome)) =
      .ok (true, true) := by
    decide +kernel
  obtain ⟨⟨w, w'⟩, h, hsome⟩ := map_eq_ok.mp hrun
  exact ⟨w, w', h, congrArg Prod.fst hsome, congrArg Prod.snd hsome⟩

theorem supply_kept_sample : ∃ w w', createAndExecute = .ok (w, w') ∧
    w'.supply = payerLedger.supply ∧ ∀ k, (w' k).lamports ≤ payerLedger.supply := by
  obtain ⟨w, w', h, -⟩ := createAndExecute_succeeds
  obtain ⟨hcreate, hexec⟩ := createAndExecute_activity h
  have hfirst := Activity.supply_kept hcreate
  have hsecond := Activity.supply_kept hexec
  exact ⟨w, w', h, hsecond.1.trans hfirst.1, fun k => hfirst.1 ▸ hsecond.2 k⟩

end Antegen.ThreadProgram
