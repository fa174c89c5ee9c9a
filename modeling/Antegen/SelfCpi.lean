import Antegen.ExecutorSafety
import Antegen.ThreadRuns

/-!
# Fibers that call the thread program

A thread signs for its own fiber instructions only inside an execution, when a fiber
targets the thread program. The inner instruction loads the stored thread, changes
its list of indices and serializes it; then the execution serializes the copy that it
made before the call.
-/
namespace Antegen.ThreadProgram

/-- The thread program as the callee of its own execution. Its fiber instructions
return no data. -/
def selfCpi (e : Env) (inner : Ix) : Cpi := fun ix w => do
  require (ix.programId = threadProgram) .callee
  (process e inner w).map (·, none)

/-- A fiber instruction that writes the list of indices, signed by the thread. -/
def SelfSigned : Ix → Prop
  | .fiberCreate a => a.authority = a.thread
  | .fiberUpdate a => a.authority = a.thread ∧ a.track = true
  | .fiberClose a => a.authority = a.thread
  | .fiberSwap a => a.authority = a.thread
  | _ => False

/-- The instruction stores a fiber under an index that is tracked already, and the
next id is past that index or at its maximum. -/
def AlreadyTracked (t : Thread) : Ix → Prop
  | .fiberCreate a => a.fiberIndex ∈ t.fiberIds ∧
      (a.fiberIndex < t.fiberNextId ∨ (a.fiberIndex = 255 ∧ t.fiberNextId = 255))
  | .fiberUpdate a => a.fiberIndex ∈ t.fiberIds
  | _ => False

/-- The fiber program leaves the accounts of the thread program to it. -/
theorem fiberProgram_keeps_owner {e : FiberProgram.Env} (ix : FiberProgram.Ix) {w w' : Ledger}
    (h : FiberProgram.exec e ix w = .ok w') {k : Pubkey} (hk : (w k).owner = threadProgram) :
    (w' k).owner = threadProgram := by
  have hwrites : ∀ {S f : Pubkey} {i : UInt8} {u : Ledger}, FiberProgram.Writes S f w u →
      FiberProgram.Origin e S f i w u → (u k).owner = threadProgram := by
    intro S f i u hw ho
    by_cases hf : k = f
    · subst hf
      rw [ho.owner_eq (by rw [hk]; exact threadProgram_ne_systemProgram), hk]
    · rw [hw.frame k hf, hk]
  cases ix with
  | create a =>
    obtain ⟨hw, ho⟩ := FiberProgram.create_eq_ok h
    exact hwrites hw ho
  | update a =>
    obtain ⟨-, hw, ho⟩ := FiberProgram.update_eq_ok h
    exact hwrites hw ho
  | close a =>
    obtain ⟨-, hw⟩ := FiberProgram.close_eq_ok h
    rw [hw.owner, hk]
  | swap a =>
    obtain ⟨source, target, w1, -, -, -, -, hw, hre, hsw⟩ := FiberProgram.swap_eq_ok h
    rw [hsw.owner]
    exact hwrites (i := 0) hw (Or.inr hre)

/-- A fiber instruction of the thread program stores its effect on the thread. -/
theorem process_threadAt {e : Env} {ix : Ix} (hself : SelfSigned ix) {w w' : Ledger} {t : Thread}
    (ht : w.threadAt ix.thread = some t) (h : process e ix w = .ok w') :
    ∃ t', Effect e (some t) t' ix ∧ w'.threadAt ix.thread = some t' := by
  have howner := (Ledger.threadAt_eq_some.mp ht).1
  cases ix with
  | threadCreate a => exact absurd hself id
  | threadUpdate a => exact absurd hself id
  | fiberCreate a =>
    simp only [process, fiberCreate, checkSeeds, checkAuthority, bind_eq_ok, require_eq_ok,
      exists_and_left, exists_const, Ledger.loadThread_eq_ok] at h
    obtain ⟨u, hu, -, -, -, w1, h1, w2, h2, h⟩ := h
    obtain rfl : u = t := Option.some.inj (hu.symm.trans ht)
    have howner1 : (w1 a.thread).owner = threadProgram := by
      rw [(prefundFiber_eq_ok h1 a.thread).1]
      exact howner
    have howner2 := fiberProgram_keeps_owner (.create _) h2 howner1
    exact ⟨_, ⟨u, rfl, rfl⟩, Ledger.threadAt_exitThread_of_owner h howner2⟩
  | fiberUpdate a =>
    simp only [process, fiberUpdate, checkSeeds, checkAuthority, bind_eq_ok, require_eq_ok,
      exists_and_left, exists_const, Ledger.loadThread_eq_ok] at h
    obtain ⟨u, hu, -, -, -, w1, h1, w2, h2, h⟩ := h
    obtain rfl : u = t := Option.some.inj (hu.symm.trans ht)
    have howner1 : (w1 a.thread).owner = threadProgram := by
      rw [(prefundFiber_eq_ok h1 a.thread).1]
      exact howner
    have howner2 := fiberProgram_keeps_owner (.update _) h2 howner1
    exact ⟨_, ⟨u, rfl, rfl⟩, Ledger.threadAt_exitThread_of_owner h howner2⟩
  | fiberClose a =>
    simp only [process, fiberClose, checkSeeds, checkAuthority, bind_eq_ok, require_eq_ok,
      exists_and_left, exists_const, Ledger.loadThread_eq_ok] at h
    obtain ⟨u, hu, -, -, hmem, w1, h1, h⟩ := h
    obtain rfl : u = t := Option.some.inj (hu.symm.trans ht)
    have howner1 := fiberProgram_keeps_owner (e := e.toEnv) (.close _) h1 howner
    exact ⟨_, ⟨u, rfl, hmem, rfl⟩, Ledger.threadAt_exitThread_of_owner h howner1⟩
  | fiberSwap a =>
    simp only [process, fiberSwap, checkSeeds, checkAuthority, bind_eq_ok, require_eq_ok,
      exists_and_left, exists_const, Ledger.loadThread_eq_ok] at h
    obtain ⟨u, hu, -, -, hmem, w1, h1, h⟩ := h
    obtain rfl : u = t := Option.some.inj (hu.symm.trans ht)
    have howner1 := fiberProgram_keeps_owner (e := e.toEnv) (.swap _) h1 howner
    exact ⟨_, ⟨u, rfl, hmem, rfl⟩, Ledger.threadAt_exitThread_of_owner h howner1⟩

/-- The next id stays where it is if the index is below it, or both are at the end. -/
theorem nextId_kept_iff (next index : UInt8) :
    (if next ≤ index then saturatingSucc index else next) = next ↔
      (index < next ∨ (index = 255 ∧ next = 255)) := by
  unfold saturatingSucc
  by_cases hle : next ≤ index
  · rw [if_pos hle]
    have hnlt : ¬ index < next := UInt8.not_lt.mpr hle
    by_cases hmax : index = 255
    · rw [if_pos hmax]
      exact ⟨fun h => Or.inr ⟨hmax, h.symm⟩, fun h => (h.resolve_left hnlt).2.symm⟩
    · rw [if_neg hmax]
      refine ⟨fun h => ?_, fun h => absurd (h.resolve_left hnlt).1 hmax⟩
      have hsucc := saturatingSucc_toNat hmax
      have hle' := UInt8.le_iff_toNat_le.mp hle
      rw [saturatingSucc, if_neg hmax, h] at hsucc
      omega
  · rw [if_neg hle]
    exact iff_of_true rfl (Or.inl (UInt8.not_le.mp hle))

/-- What an inner instruction writes to the list and the next id is what stood there
exactly if it stores a fiber under a tracked index. -/
theorem effect_same_iff {e : Env} {t inner : Thread} {ix : Ix} (hself : SelfSigned ix)
    (h : Effect e (some t) inner ix) :
    (t.fiberIds = inner.fiberIds ∧ t.fiberNextId = inner.fiberNextId) ↔ AlreadyTracked t ix := by
  have hinsert : ∀ index, index ∉ t.fiberIds → t.fiberIds ≠ Thread.insertId t.fiberIds index := by
    intro index hnot heq
    apply hnot
    rw [heq]
    exact Thread.mem_insertId.mpr (Or.inl rfl)
  have hfilter : ∀ index ∈ t.fiberIds, t.fiberIds ≠ t.fiberIds.filter (· ≠ index) := by
    intro index hmem heq
    rw [heq] at hmem
    simp at hmem
  cases ix with
  | threadCreate a => exact absurd hself id
  | threadUpdate a => exact absurd hself id
  | fiberCreate a =>
    obtain ⟨u, hu, rfl⟩ := h
    obtain rfl := Option.some.inj hu
    rw [AlreadyTracked, ← nextId_kept_iff]
    by_cases hmem : a.fiberIndex ∈ t.fiberIds
    · rw [Thread.trackCreated_fiberIds, if_pos hmem]
      exact ⟨fun hsame => ⟨hmem, hsame.2.symm⟩, fun hboth => ⟨rfl, hboth.2.symm⟩⟩
    · refine iff_of_false (fun hsame => ?_) fun hboth => hmem hboth.1
      have hids := hsame.1
      rw [Thread.trackCreated_fiberIds, if_neg hmem] at hids
      exact hinsert _ hmem hids
  | fiberUpdate a =>
    obtain ⟨u, hu, rfl⟩ := h
    obtain rfl := Option.some.inj hu
    rw [if_pos hself.2, AlreadyTracked]
    by_cases hmem : a.fiberIndex ∈ t.fiberIds
    · rw [Thread.trackUpdated, if_pos hmem]
      exact iff_of_true ⟨rfl, rfl⟩ hmem
    · refine iff_of_false (fun hsame => ?_) hmem
      have hids := hsame.1
      rw [Thread.trackUpdated_fiberIds, if_neg hmem] at hids
      exact hinsert _ hmem hids
  | fiberClose a =>
    obtain ⟨u, hu, hmem, rfl⟩ := h
    obtain rfl := Option.some.inj hu
    refine iff_of_false (fun hsame => ?_) id
    rw [Thread.untrackClosed_fiberIds] at hsame
    exact hfilter _ hmem hsame.1
  | fiberSwap a =>
    obtain ⟨u, hu, hmem, rfl⟩ := h
    obtain rfl := Option.some.inj hu
    refine iff_of_false (fun hsame => ?_) id
    rw [Thread.untrackSwapped_fiberIds] at hsame
    exact hfilter _ hmem hsame.1

/-- The inner instruction's list and next id survive the execution around it, and its
cursor is advanced over that list, exactly if they are what stood there before. -/
theorem inner_update_kept_iff {e : Env} {ix : Ix} {a : ExecArgs} {w w' : Ledger} {s : Signal}
    (hself : SelfSigned ix) (hthread : ix.thread = a.thread)
    (h : threadExec e (selfCpi e ix) a w = .ok (w', .fiber s)) :
    ∃ t called inner t', w.threadAt a.thread = some t ∧
      callee e (selfCpi e ix) a w = .ok (called, none) ∧
      called.threadAt a.thread = some inner ∧ w'.threadAt a.thread = some t' ∧
      ((t'.fiberIds = inner.fiberIds ∧ t'.fiberNextId = inner.fiberNextId ∧
        t'.fiberCursor = cyclicNext inner.fiberIds (t.sync a.fiberCursor).fiberCursor) ↔
          AlreadyTracked t ix) := by
  obtain ⟨x⟩ := threadExec_fiber h
  have hinvoked := x.invoked
  simp only [selfCpi, bind_eq_ok, require_eq_ok, exists_and_left, exists_const, map_eq_ok,
    Prod.mk.injEq] at hinvoked
  obtain ⟨-, u, hprocess, rfl, hreturned⟩ := hinvoked
  have hready := x.ready_threadAt
  rw [← hthread] at hready
  obtain ⟨inner, heffect, hinner⟩ := process_threadAt hself hready hprocess
  rw [hthread] at hinner
  have howner := (Ledger.threadAt_eq_some.mp hinner).1
  rw [← (x.paid_owner a.thread).1] at howner
  have hafter := Ledger.threadAt_exitThread_of_owner x.exited howner
  have hcallee := x.callee_eq
  rw [← hreturned] at hcallee
  refine ⟨x.thread, x.called, inner, x.finished, x.stored, hcallee, hinner, hafter, ?_⟩
  have hs : s = .none := by
    rw [x.signalled, ← hreturned]
    simp [parseSignal, Thread.downgrade]
  obtain ⟨-, -, -, -, hnext, -⟩ := x.finished_frame
  have hcursor : x.finished.fiberCursor =
      cyclicNext x.thread.fiberIds (x.thread.sync a.fiberCursor).fiberCursor := by
    have hafter : ∀ u : Thread, u.cursorAfter s = u.nextFiberIndex := by
      intro u
      rw [hs, Thread.cursorAfter_none]
    rw [x.finished_fiberCursor, hafter, Thread.nextFiberIndex, Thread.sync_fiberIds]
  rw [← effect_same_iff hself heffect, x.finished_fiberIds, hnext, hcursor]
  constructor
  · intro hkept
    exact ⟨hkept.1, hkept.2.1⟩
  · intro hsame
    exact ⟨hsame.1, hsame.2, by rw [hsame.1]⟩

/-- Fiber 0 of thread 1 closes fiber 1 through the thread program. -/
def closeSecond : Instruction :=
  ⟨threadProgram, [⟨1, true, false⟩, ⟨1, false, true⟩, ⟨sampleEnv.pubkey 1 1, false, true⟩,
    ⟨fiberProgram, false, false⟩], [51, 29, 64, 137, 119, 138, 203, 203, 1]⟩

def closeSecondIx : Ix := .fiberClose ⟨1, 1, sampleEnv.pubkey 1 1, 1⟩

/-- Fiber 0 of thread 1 updates fiber 1 through the thread program. -/
def updateSecond : Instruction :=
  ⟨threadProgram, [⟨1, true, false⟩, ⟨1, false, true⟩, ⟨sampleEnv.pubkey 1 1, false, true⟩,
    ⟨fiberProgram, false, false⟩, ⟨systemProgram, false, false⟩],
      [148, 109, 249, 167, 62, 95, 169, 160, 1, 0, 0, 1, 0]⟩

/-- The update wipes the instruction of a fiber that is tracked already. -/
def updateSecondIx : Ix :=
  .fiberUpdate ⟨1, 1, sampleEnv.pubkey 1 1, 1, none, none, true, none, FiberProgram.insertionOrder⟩

set_option maxRecDepth 20000 in
/-- The inner close, and the executions around the inner close and the inner update. -/
theorem selfCpi_evaluated :
    (callee sampleEnv (selfCpi sampleEnv closeSecondIx) (sampleArgs 0)
      (sampleLedger sampleInterval closeSecond (FiberProgram.sampleMemo 1))).map
        (fun r => (r.2, (r.1.threadAt 1).map Thread.fiberIds)) = .ok (none, some [0]) ∧
    (threadExec sampleEnv (selfCpi sampleEnv closeSecondIx) (sampleArgs 0)
      (sampleLedger sampleInterval closeSecond (FiberProgram.sampleMemo 1))).map
        (fun r => (r.2, (r.1.threadAt 1).map Thread.fiberIds,
          FiberProgram.fiberAt r.1 (sampleEnv.pubkey 1 1))) =
            .ok (.fiber .none, some [0, 1], none) ∧
    (threadExec sampleEnv (selfCpi sampleEnv updateSecondIx) (sampleArgs 0)
      (sampleLedger sampleInterval updateSecond (FiberProgram.sampleMemo 1))).map
        (fun r => r.2) = .ok (.fiber .none) := by
  refine ⟨?_, ?_, ?_⟩
  · decide +kernel
  · decide +kernel
  · decide +kernel

/-- The fiber is closed, but its index comes back with the copy of the execution. -/
theorem inner_close_undone :
    ∃ called inner w' t', SelfSigned closeSecondIx ∧
      callee sampleEnv (selfCpi sampleEnv closeSecondIx) (sampleArgs 0)
        (sampleLedger sampleInterval closeSecond (FiberProgram.sampleMemo 1)) =
          .ok (called, none) ∧
      called.threadAt 1 = some inner ∧
      threadExec sampleEnv (selfCpi sampleEnv closeSecondIx) (sampleArgs 0)
        (sampleLedger sampleInterval closeSecond (FiberProgram.sampleMemo 1)) =
          .ok (w', .fiber .none) ∧
      w'.threadAt 1 = some t' ∧ FiberProgram.fiberAt w' (sampleEnv.pubkey 1 1) = none ∧
      inner.fiberIds = [0] ∧ t'.fiberIds = [0, 1] := by
  obtain ⟨hinner, houter, -⟩ := selfCpi_evaluated
  simp only [map_eq_ok, Prod.exists, Prod.mk.injEq, Option.map_eq_some_iff] at hinner houter
  obtain ⟨called, returned, hcallee, rfl, inner, hstored, hids⟩ := hinner
  obtain ⟨w', o, hexec, rfl, ⟨t', ht', hids'⟩, hclosed⟩ := houter
  exact ⟨called, inner, w', t', rfl, hcallee, hstored, hexec, ht', hclosed, hids, hids'⟩

theorem inner_update_kept :
    ∃ called inner w' t', callee sampleEnv (selfCpi sampleEnv updateSecondIx) (sampleArgs 0)
        (sampleLedger sampleInterval updateSecond (FiberProgram.sampleMemo 1)) =
          .ok (called, none) ∧
      called.threadAt 1 = some inner ∧
      threadExec sampleEnv (selfCpi sampleEnv updateSecondIx) (sampleArgs 0)
        (sampleLedger sampleInterval updateSecond (FiberProgram.sampleMemo 1)) =
          .ok (w', .fiber .none) ∧
      w'.threadAt 1 = some t' ∧ t'.fiberIds = inner.fiberIds ∧
      t'.fiberNextId = inner.fiberNextId := by
  have hself : SelfSigned updateSecondIx := ⟨rfl, rfl⟩
  have houter := selfCpi_evaluated.2.2
  simp only [map_eq_ok, Prod.exists] at houter
  obtain ⟨w', o, hexec, rfl⟩ := houter
  obtain ⟨t, called, inner, t', ht, hcallee, hinner, ht', hiff⟩ :=
    inner_update_kept_iff hself rfl hexec
  have hthread : t = sampleInterval := by
    have hstored : (sampleLedger sampleInterval updateSecond
        (FiberProgram.sampleMemo 1)).threadAt 1 = some sampleInterval := rfl
    exact Option.some.inj (ht.symm.trans hstored)
  have hkept := hiff.mpr (by rw [hthread, updateSecondIx, AlreadyTracked]; decide)
  exact ⟨called, inner, w', t', hcallee, hinner, hexec, ht', hkept.1, hkept.2.1⟩

end Antegen.ThreadProgram
