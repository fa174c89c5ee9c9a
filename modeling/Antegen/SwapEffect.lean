import Antegen.FiberTracking

/-!
# What a swap does

The fiber program rewrites the target with the source's instruction and then sweeps the
source. It takes any two accounts that hold fibers of the signer, also one account twice, and
then sweeps what it has just written. The thread program removes the index it was given from
the list, whichever fiber the source account is.
-/
namespace Antegen

open FiberProgram

namespace FiberProgram

/-- The target keeps its shape, its thread and its lookup tables, and has the instruction and
the fee of the source. -/
structure Receives (source target target' : Fiber) : Prop where
  shape : target'.isLegacy = target.isLegacy
  thread : target'.thread = target.thread
  lookupTables : target'.lookupTables = target.lookupTables
  instruction : target'.compiledInstruction = source.compiledInstruction
  priorityFee : target'.priorityFee = source.priorityFee

/-- The target is a readable fiber with the source's instruction, the source is closed, and
the lamports of the three accounts stay among them. -/
structure MovesInstruction (a : SwapArgs) (w w' : Ledger) : Prop where
  received : ∃ source target target', readFiber (w a.source).data = .ok source ∧
    readFiber (w a.target).data = .ok target ∧ readFiber (w' a.target).data = .ok target' ∧
      Receives source target target'
  closed : a.source ≠ a.target →
    (w' a.source).lamports = 0 ∧ ∀ f, readFiber (w' a.source).data ≠ .ok f
  others : ∀ k, k ≠ a.thread → k ≠ a.target → k ≠ a.source → w' k = w k
  conserved : ∑ k ∈ ({a.thread, a.target, a.source} : Finset Pubkey), (w' k).lamports =
    ∑ k ∈ ({a.thread, a.target, a.source} : Finset Pubkey), (w k).lamports

/-- The two fibers are in different accounts. The source is not the thread itself, unless it
has no lamports. -/
def Apart (a : SwapArgs) (w : Ledger) : Prop :=
  a.target ≠ a.source ∧ (a.source = a.thread → (w a.source).lamports = 0)

theorem swapped_receives (source target : Fiber) :
    Receives source target (swapped source target) := by
  cases target with
  | legacy s => exact ⟨rfl, rfl, rfl, rfl, rfl⟩
  | v1 s => exact ⟨rfl, rfl, rfl, rfl, rfl⟩

/-- The swept account is empty in the end, also if it is the thread. -/
theorem sweepFiberLamports_lamports {w w' : Ledger} {fiber thread : Pubkey}
    (h : sweepFiberLamports w fiber thread = .ok w') (k : Pubkey) :
    (w' k).lamports = if k = fiber then 0
      else if k = thread then (w thread).lamports + (w fiber).lamports else (w k).lamports := by
  simp only [sweepFiberLamports, bind_eq_ok, require_eq_ok, exists_and_left, exists_const] at h
  obtain ⟨-, w1, h1, w2, h2, h3⟩ := h
  obtain ⟨rfl, -⟩ := Ledger.writeLamports_eq_ok h1
  obtain ⟨rfl, -⟩ := Ledger.writeLamports_eq_ok h2
  split at h3
  · obtain ⟨rfl, -⟩ := Ledger.writeData_eq_ok h3
    simp only [Ledger.setData_lamports, Ledger.setLamports_lamports]
  · exact absurd h3 (by simp)

/-- Lamports that are moved between two accounts stay in every set that holds both. -/
theorem sum_of_moved {s : Finset Pubkey} {f g : Pubkey → ℕ} {x y : Pubkey} (hx : x ∈ s)
    (hy : y ∈ s) (hne : x ≠ y) (hgx : g x = f x + f y) (hgy : g y = 0)
    (hother : ∀ k, k ≠ x → k ≠ y → g k = f k) : ∑ k ∈ s, g k = ∑ k ∈ s, f k := by
  have hy' : y ∈ s.erase x := Finset.mem_erase.mpr ⟨hne.symm, hy⟩
  have hrest : ∑ k ∈ (s.erase x).erase y, g k = ∑ k ∈ (s.erase x).erase y, f k := by
    refine Finset.sum_congr rfl fun k hk => ?_
    rw [Finset.mem_erase, Finset.mem_erase] at hk
    exact hother k hk.2.1 hk.1
  rw [← Finset.add_sum_erase s g hx, ← Finset.add_sum_erase s f hx,
    ← Finset.add_sum_erase _ g hy', ← Finset.add_sum_erase _ f hy', hrest, hgx, hgy]
  omega

/-- Lamports that are taken from one account are missing in every set that holds it. -/
theorem sum_of_lost {s : Finset Pubkey} {f g : Pubkey → ℕ} {x : Pubkey} (hx : x ∈ s)
    (hgx : g x = 0) (hother : ∀ k, k ≠ x → g k = f k) :
    ∑ k ∈ s, g k = ∑ k ∈ s, f k ↔ f x = 0 := by
  have hrest : ∑ k ∈ s.erase x, g k = ∑ k ∈ s.erase x, f k :=
    Finset.sum_congr rfl fun k hk => hother k (Finset.ne_of_mem_erase hk)
  rw [← Finset.add_sum_erase s g hx, ← Finset.add_sum_erase s f hx, hrest, hgx]
  omega

/-- A sweep keeps the lamports of the accounts it is about, unless it empties the thread. -/
theorem sweepFiberLamports_sum_iff {w w' : Ledger} {fiber thread : Pubkey}
    (h : sweepFiberLamports w fiber thread = .ok w') {s : Finset Pubkey} (hthread : thread ∈ s)
    (hfiber : fiber ∈ s) :
    ∑ k ∈ s, (w' k).lamports = ∑ k ∈ s, (w k).lamports ↔
      (fiber = thread → (w fiber).lamports = 0) := by
  have hlamports := sweepFiberLamports_lamports h
  by_cases hself : fiber = thread
  · rw [sum_of_lost hfiber (by rw [hlamports, if_pos rfl]) fun k hk => by
      rw [hlamports, if_neg hk, if_neg (by rw [← hself]; exact hk)]]
    exact ⟨fun hzero _ => hzero, fun hzero => hzero hself⟩
  · refine iff_of_true (sum_of_moved hthread hfiber (Ne.symm hself) ?_ ?_ fun k hk hk' => ?_)
      fun hcontra => absurd hcontra hself
    · rw [hlamports, if_neg (Ne.symm hself), if_pos rfl]
    · rw [hlamports, if_pos rfl]
    · rw [hlamports, if_neg hk', if_neg hk]

/-- The two steps of a swap: the target is rewritten, and the source is swept. -/
theorem swap_steps {a : SwapArgs} {w w' : Ledger} (h : swap a w = .ok w') :
    ∃ source target out, readFiber (w a.source).data = .ok source ∧
      readFiber (w a.target).data = .ok target ∧
      readFiber (.bytes out) = .ok (swapped source target) ∧
      sweepFiberLamports (w.setData a.target (.bytes out)) a.source a.thread = .ok w' := by
  simp only [swap, bind_eq_ok, require_eq_ok, exists_and_left, exists_const] at h
  obtain ⟨source, hsource, -, target, htarget, -, w1, hwrite, hsweep⟩ := h
  obtain ⟨b, out, -, rfl, hout, -⟩ := writeFiber_eq_ok hwrite
  exact ⟨source, target, out, hsource, htarget, Fiber.tryDeserialize_write hout, hsweep⟩

/-- An accepted swap moves the instruction and loses nothing, exactly if the two fibers are in
different accounts. -/
theorem swap_moves_iff {a : SwapArgs} {w w' : Ledger} (h : swap a w = .ok w') :
    MovesInstruction a w w' ↔ Apart a w := by
  obtain ⟨source, target, out, hsource, htarget, hout, hsweep⟩ := swap_steps h
  have hsweeps := sweepFiberLamports_eq_ok hsweep
  have hsum : ∑ k ∈ ({a.thread, a.target, a.source} : Finset Pubkey), (w' k).lamports =
      ∑ k ∈ ({a.thread, a.target, a.source} : Finset Pubkey), (w k).lamports ↔
        (a.source = a.thread → (w a.source).lamports = 0) := by
    have hswept := sweepFiberLamports_sum_iff hsweep
      (s := {a.thread, a.target, a.source}) (by simp) (by simp)
    simpa only [Ledger.setData_lamports] using hswept
  constructor
  · intro hmoves
    refine ⟨fun hsame => ?_, hsum.mp hmoves.conserved⟩
    obtain ⟨-, -, target', -, -, hread, -⟩ := hmoves.received
    rw [hsame] at hread
    exact hsweeps.unreadable target' hread
  · rintro ⟨hne, hthread⟩
    have hread : readFiber (w' a.target).data = .ok (swapped source target) := by
      rw [hsweeps.data a.target hne, Ledger.setData_data, if_pos rfl]
      exact hout
    refine ⟨⟨source, target, _, hsource, htarget, hread, swapped_receives source target⟩,
      fun _ => ⟨hsweeps.drained, hsweeps.unreadable⟩, fun k hk hk' hk'' => ?_,
      hsum.mpr hthread⟩
    rw [hsweeps.frame k hk'' hk, Ledger.setData_of_ne _ hk']

end FiberProgram

namespace ThreadProgram

/-- Every index that stays in the list keeps a live fiber. -/
def KeepsLive (e : Env) (thread : Pubkey) (w w' : Ledger) : Prop :=
  ∀ t', w'.threadAt thread = some t' → ∀ i ∈ t'.fiberIds,
    LiveFiber e thread w i → LiveFiber e thread w' i

/-- No live fiber of another listed index is in the source account. -/
def SourceListed (e : Env) (a : FiberSwapArgs) (w : Ledger) : Prop :=
  ∀ t, w.threadAt a.thread = some t → ∀ i ∈ t.fiberIds, i ≠ a.sourceFiberIndex →
    LiveFiber e a.thread w i → e.pubkey a.thread i ≠ a.source

/-- The steps of the instruction: the swap, and the exit with the index removed. -/
theorem fiberSwap_steps {e : Env} {a : FiberSwapArgs} {w w' : Ledger}
    (h : fiberSwap e a w = .ok w') :
    ∃ t w1, w.threadAt a.thread = some t ∧ swap ⟨a.thread, a.target, a.source⟩ w = .ok w1 ∧
      w1.exitThread a.thread (t.untrackSwapped a.sourceFiberIndex) = .ok w' := by
  simp only [fiberSwap, checkSeeds, checkAuthority, bind_eq_ok, require_eq_ok, exists_and_left,
    exists_const, Ledger.loadThread_eq_ok] at h
  obtain ⟨t, ht, -, -, -, w1, hswap, hexit⟩ := h
  exact ⟨t, w1, ht, hswap, hexit⟩

/-- A thread is not a fiber. -/
theorem LiveFiber.ne_thread {e : Env} {thread : Pubkey} {w : Ledger} {i : UInt8} {t : Thread}
    (h : LiveFiber e thread w i) (ht : w.threadAt thread = some t) :
    e.pubkey thread i ≠ thread := by
  obtain ⟨f, hf, -⟩ := h
  intro hself
  rw [hself] at hf
  have hread := (fiberAt_eq_some.mp hf).2
  rw [(Ledger.threadAt_eq_some.mp ht).2] at hread
  exact absurd hread (by simp [readFiber])

/-- A swap leaves every live fiber live but the one in the source account. -/
theorem LiveFiber.swap_iff {e : Env} {a : SwapArgs} {w w' : Ledger} {i : UInt8}
    (hlive : LiveFiber e a.thread w i) (h : swap a w = .ok w') :
    LiveFiber e a.thread w' i ↔ e.pubkey a.thread i ≠ a.source := by
  obtain ⟨source, target, w1, -, -, -, -, hwrites, hrewrites, hsweeps⟩ := swap_eq_ok h
  constructor
  · rintro ⟨f, hf, -⟩ hself
    rw [hself] at hf
    exact hsweeps.unreadable f (fiberAt_eq_some.mp hf).2
  · intro hne
    have hrewritten : LiveFiber e a.thread w1 i := by
      obtain ⟨f, hf, hthread, hpos⟩ := hlive
      by_cases htarget : e.pubkey a.thread i = a.target
      · obtain ⟨g, hg, hgthread⟩ := hwrites.fiber
        have howner := (fiberAt_eq_some.mp hf).1
        rw [htarget] at howner hpos
        refine ⟨g, ?_, hgthread, ?_⟩
        · rw [htarget]
          exact fiberAt_eq_some.mpr ⟨hrewrites.owner.trans howner, hg⟩
        · rw [htarget, hwrites.lamports]
          exact hpos
      · have hframe := hwrites.frame _ htarget
        refine ⟨f, ?_, hthread, ?_⟩
        · rw [fiberAt_congr (by rw [hframe]) (by rw [hframe])]
          exact hf
        · rw [hframe]
          exact hpos
    exact (Sweeps.spared hsweeps hne).live hrewritten

/-- The list is left with live fibers only, exactly if the source account is not the one of
another listed index. -/
theorem fiberSwap_keepsLive_iff {e : Env} {a : FiberSwapArgs} {w w' : Ledger}
    (h : fiberSwap e a w = .ok w') : KeepsLive e a.thread w w' ↔ SourceListed e a w := by
  obtain ⟨t, w1, ht, hswap, hexit⟩ := fiberSwap_steps h
  have howner : (w1 a.thread).owner = threadProgram := by
    obtain ⟨-, -, out, -, -, -, hsweep⟩ := swap_steps hswap
    rw [(sweepFiberLamports_eq_ok hsweep).owner, Ledger.setData_owner]
    exact (Ledger.threadAt_eq_some.mp ht).1
  have hstored := Ledger.threadAt_exitThread_of_owner hexit howner
  have hiff : ∀ i, LiveFiber e a.thread w i →
      (LiveFiber e a.thread w' i ↔ e.pubkey a.thread i ≠ a.source) := fun i hlive => by
    have hne := hlive.ne_thread ht
    rw [← LiveFiber.swap_iff (a := ⟨a.thread, a.target, a.source⟩) hlive hswap]
    constructor
    · rintro ⟨f, hf, hthread, hpos⟩
      rw [(Spared.exitThread hexit hne).fiberAt] at hf
      rw [Ledger.exitThread_lamports hexit] at hpos
      exact ⟨f, hf, hthread, hpos⟩
    · exact (Spared.exitThread hexit hne).live
  unfold KeepsLive SourceListed
  rw [hstored, ht]
  simp only [Option.some.injEq, forall_eq', Thread.untrackSwapped_fiberIds, List.mem_filter,
    decide_eq_true_eq, and_imp]
  exact forall_congr' fun i => forall_congr' fun _ => forall_congr' fun _ =>
    forall_congr' fun hlive => hiff i hlive

/-- What both programs owe of a swap, exactly when they do it. -/
theorem swap_effect_iff (w w' : Ledger) :
    (∀ a : SwapArgs, swap a w = .ok w' → (MovesInstruction a w w' ↔ Apart a w)) ∧
    ∀ (e : Env) (a : FiberSwapArgs), fiberSwap e a w = .ok w' →
      (KeepsLive e a.thread w w' ↔ SourceListed e a w) :=
  ⟨fun _ h => swap_moves_iff h, fun _ _ h => fiberSwap_keepsLive_iff h⟩

/-- A swap of a fiber of thread 1 into itself. -/
def selfSwap : SwapArgs := ⟨1, sampleEnv.pubkey 1 1, sampleEnv.pubkey 1 1⟩

/-- A swap of fiber 1 of thread 1 into fiber 0, and the index that is given with it. -/
def swapIntoZero (sourceFiberIndex : UInt8) : FiberSwapArgs :=
  ⟨5, 1, sampleEnv.pubkey 1 0, sampleEnv.pubkey 1 1, sourceFiberIndex⟩

set_option maxRecDepth 20000 in
/-- The fiber that is swapped into itself is gone. With the index of the target instead of the
source's, the list is left with the index of the closed fiber. -/
theorem swap_loses_fiber :
    (∃ w w', Reachable sampleEnv 1 w ∧ swap selfSwap w = .ok w' ∧
      ¬ MovesInstruction selfSwap w w') ∧
    ∃ w w', Reachable sampleEnv 1 w ∧ fiberSwap sampleEnv (swapIntoZero 0) w = .ok w' ∧
      ¬ KeepsLive sampleEnv 1 w w' := by
  constructor
  · have hrun : (twoFibers sampleTrigger >>= swap selfSwap).map
        (fun w' => (readFiber (w' selfSwap.target).data).toOption) = .ok none := by
      decide +kernel
    simp only [map_eq_ok, bind_eq_ok] at hrun
    obtain ⟨w', ⟨w, hsetup, hswap⟩, hgone⟩ := hrun
    refine ⟨w, w', twoFibers_reachable hsetup, hswap, fun hmoves => ?_⟩
    obtain ⟨-, -, target', -, -, hread, -⟩ := hmoves.received
    rw [hread] at hgone
    exact absurd hgone (by simp [Except.toOption])
  · have hrun : (twoFibers sampleTrigger >>= fun w =>
        (fiberSwap sampleEnv (swapIntoZero 0) w).map fun w' => (w, w')).map
        (fun r => (((fiberAt r.1 (sampleEnv.pubkey 1 1)).map Fiber.thread,
          decide (0 < (r.1 (sampleEnv.pubkey 1 1)).lamports)),
          (r.2.threadAt 1).map Thread.fiberIds, fiberAt r.2 (sampleEnv.pubkey 1 1))) =
        .ok ((some 1, true), some [1], none) := by
      decide +kernel
    simp only [map_eq_ok, bind_eq_ok, Prod.mk.injEq, Option.map_eq_some_iff,
      decide_eq_true_eq] at hrun
    obtain ⟨_, ⟨w, hsetup, w', hswap, rfl⟩, ⟨⟨f, hf, hthread⟩, hpos⟩, ⟨t, ht, hids⟩, hgone⟩ := hrun
    refine ⟨w, w', twoFibers_reachable hsetup, hswap, fun hkeeps => ?_⟩
    obtain ⟨f', hf', -⟩ := hkeeps t ht 1 (by rw [hids]; decide) ⟨f, hf, hthread, hpos⟩
    rw [hgone] at hf'
    exact absurd hf' (by simp)

set_option maxRecDepth 20000 in
theorem swap_moves_memo :
    ∃ w w₁ w', Reachable sampleEnv 1 w ∧
      swap ⟨1, sampleEnv.pubkey 1 0, sampleEnv.pubkey 1 1⟩ w = .ok w₁ ∧
      MovesInstruction ⟨1, sampleEnv.pubkey 1 0, sampleEnv.pubkey 1 1⟩ w w₁ ∧
      fiberSwap sampleEnv (swapIntoZero 1) w = .ok w' ∧ KeepsLive sampleEnv 1 w w' := by
  have hrun : (twoFibers sampleTrigger >>= fun w =>
      swap ⟨1, sampleEnv.pubkey 1 0, sampleEnv.pubkey 1 1⟩ w >>= fun w₁ =>
        (fiberSwap sampleEnv (swapIntoZero 1) w).map fun w' => (w, w₁, w')).map
        (fun r => (r.1.threadAt 1).map Thread.fiberIds) = .ok (some [0, 1]) := by
    decide +kernel
  simp only [map_eq_ok, bind_eq_ok, Option.map_eq_some_iff] at hrun
  obtain ⟨_, ⟨w, hsetup, w₁, hswap, w', hfiberSwap, rfl⟩, t, ht, hids⟩ := hrun
  refine ⟨w, w₁, w', twoFibers_reachable hsetup, hswap, ((swap_effect_iff w w₁).1 _ hswap).mpr ?_,
    hfiberSwap, ((swap_effect_iff w w').2 _ _ hfiberSwap).mpr ?_⟩
  · exact ⟨by decide, fun hself => absurd hself (by decide)⟩
  · have hapart : ∀ i ∈ ([0, 1] : List UInt8), i ≠ 1 →
        sampleEnv.pubkey 1 i ≠ sampleEnv.pubkey 1 1 := by
      decide
    intro u hu i hi hne _
    obtain rfl := Option.some.inj (ht.symm.trans hu)
    rw [hids] at hi
    exact hapart i hi hne

end ThreadProgram

end Antegen
