import Mathlib.Data.FinEnum
import Antegen.FiberIsolation
import Antegen.Payments
import Mathlib.Tactic

/-!
# The sum of all balances

Lamports move between accounts, and only the thread program stores threads. A step is
quiet if it leaves the sum of all balances and every stored thread as they are. The
transfers of the runtime and the instructions of the fiber program are quiet, and the
exit of an instruction changes one thread.
-/
namespace Antegen

/-! ## Sums over a written function -/

namespace Totals

variable {ι : Type*} [Fintype ι]

def total (f : ι → ℕ) : ℕ := ∑ i, f i

theorem le_total (f : ι → ℕ) (i : ι) : f i ≤ total f :=
  Finset.single_le_sum (fun _ _ => Nat.zero_le _) (Finset.mem_univ i)

variable [DecidableEq ι]

/-- Writing replaces one term of the sum. -/
theorem total_update (f : ι → ℕ) (i : ι) (n : ℕ) :
    total (Function.update f i n) + f i = total f + n := by
  have hold := Finset.add_sum_erase Finset.univ f (Finset.mem_univ i)
  have hnew := Finset.sum_update_of_mem (Finset.mem_univ i) f n
  rw [Finset.sdiff_singleton_eq_erase] at hnew
  unfold total
  omega

end Totals

/-! ## Lamports -/

open Totals

namespace Ledger

/-- The sum of all balances. -/
def supply (w : Ledger) : ℕ := total fun k => (w k).lamports

theorem lamports_le_supply (w : Ledger) (k : Pubkey) : (w k).lamports ≤ w.supply :=
  Totals.le_total (fun k => (w k).lamports) k

theorem supply_congr {w w' : Ledger} (h : ∀ k, (w' k).lamports = (w k).lamports) :
    w'.supply = w.supply :=
  congrArg total (funext h)

theorem supply_setLamports (w : Ledger) (k : Pubkey) (n : ℕ) :
    (w.setLamports k n).supply + (w k).lamports = w.supply + n := by
  have hupdate : (fun j => (w.setLamports k n j).lamports) =
      Function.update (fun j => (w j).lamports) k n := by
    funext j
    by_cases hj : j = k
    · subst hj
      simp
    · simp [hj]
  rw [supply, hupdate]
  exact total_update (fun j => (w j).lamports) k n

/-- Lamports are taken from one account and given to another, which may be the same. -/
def moveLamports (w : Ledger) (source target : Pubkey) (n : ℕ) : Ledger :=
  let taken := w.setLamports source ((w source).lamports - n)
  taken.setLamports target ((taken target).lamports + n)

/-- All lamports of one account are given to another. -/
def drainLamports (w : Ledger) (source target : Pubkey) : Ledger :=
  (w.setLamports target ((w target).lamports + (w source).lamports)).setLamports source 0

theorem supply_moveLamports {w : Ledger} {source : Pubkey} {n : ℕ}
    (h : n ≤ (w source).lamports) (target : Pubkey) :
    (w.moveLamports source target n).supply = w.supply := by
  have hsource := supply_setLamports w source ((w source).lamports - n)
  have htarget := supply_setLamports (w.setLamports source ((w source).lamports - n)) target
    ((w.setLamports source ((w source).lamports - n) target).lamports + n)
  unfold moveLamports
  dsimp only
  omega

theorem supply_drainLamports {w : Ledger} {source target : Pubkey} (h : source ≠ target) :
    (w.drainLamports source target).supply = w.supply := by
  have htarget := supply_setLamports w target ((w target).lamports + (w source).lamports)
  have hsource := supply_setLamports
    (w.setLamports target ((w target).lamports + (w source).lamports)) source 0
  rw [setLamports_lamports, if_neg h] at hsource
  unfold drainLamports
  omega

theorem supply_collect (w : Ledger) : w.collect.supply = w.supply := by
  refine supply_congr fun k => ?_
  unfold collect
  split_ifs with h
  · rw [h]
    rfl
  · rfl

/-! ## Which threads are stored -/

theorem threadAt_congr {w w' : Ledger} {k : Pubkey} (howner : (w' k).owner = (w k).owner)
    (hdata : (w' k).data = (w k).data) : w'.threadAt k = w.threadAt k := by
  rw [threadAt, threadAt, howner, hdata]

theorem threadAt_of_bytes {w : Ledger} {k : Pubkey} {b : List UInt8} (h : (w k).data = .bytes b) :
    w.threadAt k = none := by
  rw [threadAt, h]

theorem threadAt_of_owner {w : Ledger} {k : Pubkey} (h : (w k).owner ≠ threadProgram) :
    w.threadAt k = none := by
  refine Option.eq_none_iff_forall_ne_some.mpr fun t ht => ?_
  exact h (threadAt_eq_some.mp ht).1

/-- The stored threads and the sum of all balances are as before. -/
structure Quiet (w w' : Ledger) : Prop where
  threads : ∀ k, w'.threadAt k = w.threadAt k
  supply : w'.supply = w.supply

namespace Quiet

theorem refl (w : Ledger) : Quiet w w := ⟨fun _ => rfl, rfl⟩

theorem trans {w u w' : Ledger} (h : Quiet w u) (h' : Quiet u w') : Quiet w w' :=
  ⟨fun k => (h'.threads k).trans (h.threads k), h'.supply.trans h.supply⟩

end Quiet

theorem moveLamports_quiet {w : Ledger} {source : Pubkey} {n : ℕ} (h : n ≤ (w source).lamports)
    (target : Pubkey) : Quiet w (w.moveLamports source target n) :=
  ⟨fun k => threadAt_congr (by simp [moveLamports]) (by simp [moveLamports]),
    supply_moveLamports h target⟩

/-- Bytes replace what is no thread by what is none. -/
theorem setData_bytes_quiet {w : Ledger} {k : Pubkey} (h : w.threadAt k = none) (b : List UInt8) :
    Quiet w (w.setData k (.bytes b)) := by
  refine ⟨fun j => ?_, supply_congr fun j => by simp⟩
  by_cases hj : j = k
  · subst hj
    rw [h, threadAt_of_bytes (b := b) (by simp)]
  · exact threadAt_congr (by simp) (by simp [hj])

/-- Other programs write no threads. -/
theorem writeData_quiet {program : Pubkey} (hprogram : program ≠ threadProgram) {w w' : Ledger}
    {k : Pubkey} {b : List UInt8} (h : w.writeData program k (.bytes b) = .ok w') :
    Quiet w w' := by
  obtain ⟨rfl, hold⟩ := writeData_eq_ok h
  refine setData_bytes_quiet ?_ b
  rcases hold with hdata | howner
  · exact threadAt_of_bytes hdata
  · exact threadAt_of_owner (howner.trans_ne hprogram)

theorem allocate_quiet {w w' : Ledger} {k : Pubkey} {space : ℕ}
    (h : w.allocate k space = .ok w') : Quiet w w' := by
  simp only [allocate, bind_eq_ok, require_eq_ok, exists_and_left, exists_const, pure_eq_ok] at h
  obtain ⟨⟨-, howner⟩, rfl⟩ := h
  refine setData_bytes_quiet (threadAt_of_owner ?_) _
  rw [howner]
  exact threadProgram_ne_systemProgram.symm

theorem allocate_data {w w' : Ledger} {k : Pubkey} {space : ℕ}
    (h : w.allocate k space = .ok w') : (w' k).data = .bytes (List.replicate space 0) := by
  simp only [allocate, bind_eq_ok, pure_eq_ok] at h
  obtain ⟨-, -, rfl⟩ := h
  simp

/-- An account of bytes is no thread, whoever owns it. -/
theorem assign_quiet {w w' : Ledger} {k owner : Pubkey} {b : List UInt8}
    (hdata : (w k).data = .bytes b) (h : w.assign k owner = .ok w') : Quiet w w' := by
  unfold assign at h
  split_ifs at h
  · obtain rfl := Except.ok.inj h
    exact Quiet.refl w
  · obtain rfl := Except.ok.inj h
    refine ⟨fun j => ?_, supply_congr fun j => by simp⟩
    by_cases hj : j = k
    · subst hj
      rw [threadAt_of_bytes hdata, threadAt_of_bytes (b := b) (by simpa using hdata)]
    · exact threadAt_congr (by simp [hj]) (by simp)

theorem transfer_quiet {w w' : Ledger} {source target : Pubkey} {amount : ℕ}
    (h : w.transfer source target amount = .ok w') : Quiet w w' := by
  simp only [transfer, bind_eq_ok, require_eq_ok, exists_and_left, exists_const, pure_eq_ok] at h
  obtain ⟨-, hle, -, rfl⟩ := h
  exact moveLamports_quiet hle target

/-- The exit of an instruction changes the thread at its own address only. -/
structure Local (thread : Pubkey) (w w' : Ledger) : Prop where
  threads : ∀ k, k ≠ thread → w'.threadAt k = w.threadAt k
  supply : w'.supply = w.supply

theorem Quiet.isLocal {w w' : Ledger} (h : Quiet w w') (thread : Pubkey) : Local thread w w' :=
  ⟨fun k _ => h.threads k, h.supply⟩

theorem Local.trans {thread : Pubkey} {w u w' : Ledger} (h : Local thread w u)
    (h' : Local thread u w') : Local thread w w' :=
  ⟨fun k hk => (h'.threads k hk).trans (h.threads k hk), h'.supply.trans h.supply⟩

theorem exitThread_local {w w' : Ledger} {thread : Pubkey} {t : Thread}
    (h : w.exitThread thread t = .ok w') : Local thread w w' := by
  refine ⟨fun k hk => ?_, supply_congr (exitThread_lamports h)⟩
  have hframe := exitThread_of_ne h hk
  exact threadAt_congr (by rw [hframe]) (by rw [hframe])

end Ledger

open Ledger

theorem transferLamports_quiet {w w' : Ledger} {source target : Pubkey} {amount : ℕ}
    (h : transferLamports w source target amount = .ok w') : Quiet w w' := by
  unfold transferLamports at h
  split_ifs at h
  · obtain rfl := Except.ok.inj h
    exact Quiet.refl w
  · simp only [bind_eq_ok, require_eq_ok, exists_and_left, exists_const] at h
    obtain ⟨hle, u, hu, -, h⟩ := h
    obtain ⟨rfl, -⟩ := writeLamports_eq_ok hu
    obtain ⟨rfl, -⟩ := writeLamports_eq_ok h
    exact moveLamports_quiet hle target

theorem distributePayments_quiet {w w' : Ledger} {thread executor admin : Pubkey}
    {p : PaymentDetails} (h : distributePayments w thread executor admin p = .ok w') :
    Quiet w w' := by
  simp only [distributePayments, bind_eq_ok] at h
  obtain ⟨total, -, u, hu, h⟩ := h
  exact (transferLamports_quiet hu).trans (transferLamports_quiet h)

/-! ## The fiber program -/

namespace FiberProgram

theorem threadAt_of_readFiber {w : Ledger} {k : Pubkey} {f : Fiber}
    (h : readFiber (w k).data = .ok f) : w.threadAt k = none := by
  cases hd : (w k).data with
  | bytes b => exact threadAt_of_bytes hd
  | thread t =>
    rw [hd] at h
    exact absurd h (by simp [readFiber])

theorem Writes.quiet {e : Env} {thread k : Pubkey} {index : UInt8} {w w' : Ledger}
    (h : Writes thread k w w') (horigin : Origin e thread k index w w') : Quiet w w' := by
  obtain ⟨f, hread, -⟩ := h.fiber
  have hbefore : w.threadAt k = none := by
    rcases horigin with hfresh | hre
    · refine threadAt_of_owner ?_
      rw [hfresh.before]
      exact threadProgram_ne_systemProgram.symm
    · obtain ⟨g, hg⟩ := hre.read
      exact threadAt_of_readFiber hg
  refine ⟨fun j => ?_, supply_congr fun j => ?_⟩
  · by_cases hj : j = k
    · subst hj
      rw [hbefore, threadAt_of_readFiber hread]
    · have hframe := h.frame j hj
      exact threadAt_congr (by rw [hframe]) (by rw [hframe])
  · by_cases hj : j = k
    · subst hj
      exact h.lamports
    · rw [h.frame j hj]

theorem create_quiet {e : Env} {a : CreateArgs} {w w' : Ledger} (h : create e a w = .ok w') :
    Quiet w w' := by
  obtain ⟨hw, ho⟩ := create_eq_ok h
  exact hw.quiet ho

theorem update_quiet {e : Env} {a : UpdateArgs} {w w' : Ledger} (h : update e a w = .ok w') :
    Quiet w w' := by
  obtain ⟨-, hw, ho⟩ := update_eq_ok h
  exact hw.quiet ho

theorem sweepFiberLamports_quiet {w w' : Ledger} {fiber thread : Pubkey} (hne : fiber ≠ thread)
    (h : sweepFiberLamports w fiber thread = .ok w') : Quiet w w' := by
  simp only [sweepFiberLamports, bind_eq_ok, require_eq_ok, exists_and_left, exists_const] at h
  obtain ⟨-, u, hu, v, hv, h⟩ := h
  obtain ⟨rfl, -⟩ := writeLamports_eq_ok hu
  obtain ⟨rfl, -⟩ := writeLamports_eq_ok hv
  split at h
  · have hdrain : Quiet w (w.drainLamports fiber thread) :=
      ⟨fun k => threadAt_congr (by simp [drainLamports]) (by simp [drainLamports]),
        supply_drainLamports hne⟩
    exact hdrain.trans (writeData_quiet threadProgram_ne_fiberProgram.symm h)
  · exact absurd h (by simp)

theorem close_quiet {a : CloseArgs} {w w' : Ledger} (hne : a.fiber ≠ a.thread)
    (h : close a w = .ok w') : Quiet w w' := by
  simp only [close, bind_eq_ok] at h
  obtain ⟨f, -, -, -, h⟩ := h
  exact sweepFiberLamports_quiet hne h

theorem swap_quiet {a : SwapArgs} {w w' : Ledger} (hne : a.source ≠ a.thread)
    (h : swap a w = .ok w') : Quiet w w' := by
  simp only [swap, bind_eq_ok] at h
  obtain ⟨source, -, -, -, target, ht, -, -, u, hu, h⟩ := h
  obtain ⟨hw, hre⟩ := writeFiber_writes ht hu
  have horigin : Origin ⟨fun _ _ => 0, fun _ => 0⟩ target.thread a.target 0 w u := Or.inr hre
  rw [swapped_thread] at hw
  exact (hw.quiet horigin).trans (sweepFiberLamports_quiet hne h)

/-- No instruction of the fiber program changes a thread or the sum of all balances, if
what signs it is no fiber. -/
theorem exec_quiet {e : Env} {ix : Ix} {w w' : Ledger}
    (hsigner : ∀ f, readFiber (w ix.signer).data ≠ .ok f) (h : exec e ix w = .ok w') :
    Quiet w w' := by
  have hne : ∀ {k : Pubkey} {f : Fiber}, readFiber (w k).data = .ok f → k ≠ ix.signer := by
    rintro k f hf rfl
    exact hsigner f hf
  cases ix with
  | create a => exact create_quiet h
  | update a => exact update_quiet h
  | close a =>
    obtain ⟨⟨f, hf, -⟩, -⟩ := close_eq_ok h
    exact close_quiet (hne hf) h
  | swap a =>
    obtain ⟨source, -, -, hf, -⟩ := swap_eq_ok h
    exact swap_quiet (hne hf) h

end FiberProgram

end Antegen
