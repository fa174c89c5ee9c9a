import Antegen.ThreadInstructions
import Antegen.Transition

/-!
# Runs of a thread

The life of one thread as a transition system on ledgers: instructions on it,
executions of it with any callee, and steps that do not touch its account or remove
it. `step_cases` says once what each step makes of the stored thread, and every
invariant is derived from it.
-/
namespace Antegen.ThreadProgram

open Transition

/-- What an instruction makes of the stored thread. -/
def Effect (e : Env) (before : Option Thread) (after : Thread) : Ix → Prop
  | .threadCreate a => ∃ bump nonce schedule closeFiber,
      after = createdThread a bump nonce schedule closeFiber
  | .threadUpdate a => ∃ t ∈ before, updatedThread e a t = .ok after
  | .fiberCreate a => ∃ t ∈ before, after = t.trackCreated a.fiberIndex
  | .fiberUpdate a => ∃ t ∈ before, after = if a.track then t.trackUpdated a.fiberIndex else t
  | .fiberClose a => ∃ t ∈ before, a.fiberIndex ∈ t.fiberIds ∧
      after = t.untrackClosed a.fiberIndex
  | .fiberSwap a => ∃ t ∈ before, a.sourceFiberIndex ∈ t.fiberIds ∧
      after = t.untrackSwapped a.sourceFiberIndex

/-- Every instruction serializes its effect on the thread it was given. -/
theorem process_eq_ok {e : Env} {ix : Ix} {w w' : Ledger} (h : process e ix w = .ok w') :
    ∃ (t' : Thread) (u : Ledger), Effect e (w.threadAt ix.thread) t' ix ∧
      u.exitThread ix.thread t' = .ok w' := by
  cases ix with
  | threadCreate a =>
    simp only [process, threadCreate, bind_eq_ok, require_eq_ok, exists_and_left, exists_const,
      Prod.exists] at h
    obtain ⟨bump, -, -, w1, -, w2, nonce, -, schedule, -, bytes, -, w3, -, w4, -, h⟩ := h
    exact ⟨_, w4, ⟨bump, nonce, schedule, bytes, rfl⟩, h⟩
  | threadUpdate a =>
    simp only [process, threadUpdate, checkSeeds, bind_eq_ok, require_eq_ok, exists_and_left,
      exists_const, Ledger.loadThread_eq_ok] at h
    obtain ⟨t, ht, -, -, t', ht', h⟩ := h
    exact ⟨t', w, ⟨t, ht, ht'⟩, h⟩
  | fiberCreate a =>
    simp only [process, fiberCreate, checkSeeds, checkAuthority, bind_eq_ok, require_eq_ok,
      exists_and_left, exists_const, Ledger.loadThread_eq_ok] at h
    obtain ⟨t, ht, -, -, -, w1, -, w2, -, h⟩ := h
    exact ⟨_, w2, ⟨t, ht, rfl⟩, h⟩
  | fiberUpdate a =>
    simp only [process, fiberUpdate, checkSeeds, checkAuthority, bind_eq_ok, require_eq_ok,
      exists_and_left, exists_const, Ledger.loadThread_eq_ok] at h
    obtain ⟨t, ht, -, -, -, w1, -, w2, -, h⟩ := h
    exact ⟨_, w2, ⟨t, ht, rfl⟩, h⟩
  | fiberClose a =>
    simp only [process, fiberClose, checkSeeds, checkAuthority, bind_eq_ok, require_eq_ok,
      exists_and_left, exists_const, Ledger.loadThread_eq_ok] at h
    obtain ⟨t, ht, -, -, hmem, w1, -, h⟩ := h
    exact ⟨_, w1, ⟨t, ht, hmem, rfl⟩, h⟩
  | fiberSwap a =>
    simp only [process, fiberSwap, checkSeeds, checkAuthority, bind_eq_ok, require_eq_ok,
      exists_and_left, exists_const, Ledger.loadThread_eq_ok] at h
    obtain ⟨t, ht, -, -, hmem, w1, -, h⟩ := h
    exact ⟨_, w1, ⟨t, ht, hmem, rfl⟩, h⟩

/-- A step of the system, seen from one thread. An execution is labelled with the
thread as it was stored before and with its outcome. -/
inductive Event
  | instruction (ix : Ix)
  | exec (cpi : Cpi) (a : ExecArgs) (before : Thread) (outcome : Outcome)
  | other

def Step (e : Env) (thread : Pubkey) (w : Ledger) : Event → Ledger → Prop
  | .instruction ix, w' => ix.thread = thread ∧ process e ix w = .ok w'
  | .exec cpi a before outcome, w' => a.thread = thread ∧ w.threadAt thread = some before ∧
      threadExec e cpi a w = .ok (w', outcome)
  | .other, w' => w'.threadAt thread = w.threadAt thread ∨ w'.threadAt thread = none

/-- A successful execution is a step, labelled with the thread it loaded. -/
theorem exec_step {e : Env} {cpi : Cpi} {a : ExecArgs} {w w' : Ledger} {outcome : Outcome}
    (h : threadExec e cpi a w = .ok (w', outcome)) :
    ∃ t, w.threadAt a.thread = some t ∧ Step e a.thread w (.exec cpi a t outcome) w' := by
  have hload := h
  simp only [threadExec, bind_eq_ok, Ledger.loadThread_eq_ok] at hload
  obtain ⟨t, ht, -⟩ := hload
  exact ⟨t, ht, rfl, ht, h⟩

/-- Every way in which a step leaves a thread at the address. -/
theorem step_cases {e : Env} {thread : Pubkey} {w w' : Ledger} {ev : Event}
    (h : Step e thread w ev w') {t' : Thread} (ht' : w'.threadAt thread = some t') :
    (∃ ix, ev = .instruction ix ∧ Effect e (w.threadAt thread) t' ix) ∨
    (∃ cpi a s, ∃ x : Execution e cpi a w w' s,
      ev = .exec cpi a x.thread (.fiber s) ∧ w.threadAt thread = some x.thread ∧
        a.thread = thread ∧ t' = x.finished) ∨
    (∃ cpi a, ev = .exec cpi a t' .closePath ∧ w.threadAt thread = some t' ∧
      t'.fiberSignal = .close) ∨
    (ev = .other ∧ w.threadAt thread = some t') := by
  cases ev with
  | instruction ix =>
    obtain ⟨rfl, hp⟩ := h
    obtain ⟨t, u, heffect, hexit⟩ := process_eq_ok hp
    obtain rfl := Ledger.eq_of_threadAt_exitThread hexit ht'
    exact Or.inl ⟨ix, rfl, heffect⟩
  | exec cpi a before outcome =>
    obtain ⟨rfl, hbefore, hexec⟩ := h
    cases outcome with
    | fiber s =>
      obtain ⟨x⟩ := threadExec_fiber hexec
      have hstored := x.stored
      refine Or.inr (Or.inl ⟨cpi, a, s, x, ?_, hstored, rfl, x.eq_finished ht'⟩)
      rw [hbefore] at hstored
      rw [Option.some.inj hstored]
    | closePath =>
      obtain ⟨t, ix, called, returned, hstored, -, -, hclose, -, -, hexit⟩ :=
        threadExec_closePath hexec
      obtain rfl := Ledger.eq_of_threadAt_exitThread hexit ht'
      rw [hbefore] at hstored
      obtain rfl := Option.some.inj hstored
      exact Or.inr (Or.inr (Or.inl ⟨cpi, a, rfl, hbefore, hclose⟩))
  | other =>
    rcases h with hsame | hnone
    · exact Or.inr (Or.inr (Or.inr ⟨rfl, by rw [← hsame, ht']⟩))
    · rw [hnone] at ht'
      exact absurd ht' (by simp)

/-- A property of the stored thread, if there is one. -/
def Holds (thread : Pubkey) (I : Thread → Prop) (w : Ledger) : Prop :=
  ∀ t, w.threadAt thread = some t → I t

/-- What instructions and executions keep, every run keeps. -/
theorem holds_of_run {e : Env} {thread : Pubkey} {guard : Ledger → Event → Prop}
    {I : Thread → Prop}
    (hix : ∀ w ix t', guard w (.instruction ix) → Holds thread I w →
      Effect e (w.threadAt thread) t' ix → I t')
    (hexec : ∀ cpi a w w' s (x : Execution e cpi a w w' s), w.threadAt thread = some x.thread →
      guard w (.exec cpi a x.thread (.fiber s)) → I x.thread → I x.finished)
    {w₀ w : Ledger} {events : List Event} (h : Run (Guarded (Step e thread) guard) w₀ events w)
    (h₀ : Holds thread I w₀) : Holds thread I w := by
  refine h.invariant (I := Holds thread I) (fun u ev u' hu hstep t' ht' => ?_) h₀
  obtain ⟨hguard, hstep⟩ := hstep
  rcases step_cases hstep ht' with ⟨ix, rfl, heffect⟩ | ⟨cpi, a, s, x, rfl, hx, -, rfl⟩ |
    ⟨cpi, a, -, hsame, -⟩ | ⟨-, hsame⟩
  · exact hix u ix t' hguard hu heffect
  · exact hexec cpi a u u' s x hx hguard (hu _ hx)
  · exact hu t' hsame
  · exact hu t' hsame

/-- Ledgers that a run can lead to from one without the thread. -/
def Reachable (e : Env) (thread : Pubkey) (w : Ledger) : Prop :=
  ∃ w₀ events, w₀.threadAt thread = none ∧ Run (Step e thread) w₀ events w

/-- What an instruction stores is its effect on what was stored. -/
theorem process_effect {e : Env} {ix : Ix} {w w' : Ledger} (h : process e ix w = .ok w')
    {t' : Thread} (ht' : w'.threadAt ix.thread = some t') :
    Effect e (w.threadAt ix.thread) t' ix := by
  obtain ⟨t, u, heffect, hexit⟩ := process_eq_ok h
  obtain rfl := Ledger.eq_of_threadAt_exitThread hexit ht'
  exact heffect

/-- The thread that `thread_create` stores, with the sources of its schedule and of
its close instruction. -/
theorem threadCreate_stored {e : Env} {a : ThreadCreateArgs} {w w' : Ledger} {t' : Thread}
    (h : threadCreate e a w = .ok w') (ht' : w'.threadAt a.thread = some t') :
    ∃ bump nonce schedule closeFiber, t' = createdThread a bump nonce schedule closeFiber ∧
      initialSchedule e.toHost a.trigger a.clock a.thread = .ok schedule ∧
      compileToBytes a.order (closeThreadInstruction a.authority a.thread) = .ok closeFiber := by
  simp only [threadCreate, bind_eq_ok, require_eq_ok, exists_and_left, exists_const,
    Prod.exists] at h
  obtain ⟨bump, -, -, w1, -, w2, nonce, -, schedule, hschedule, bytes, hbytes, w3, -, w4, -, h⟩ := h
  obtain rfl := Ledger.eq_of_threadAt_exitThread h ht'
  exact ⟨bump, nonce, schedule, bytes, rfl, hschedule, hbytes⟩

/-- Every way in which an instruction stores a thread: a new one, one with another
trigger, or one with other fibers. -/
theorem process_cases {e : Env} {ix : Ix} {w w' : Ledger} (h : process e ix w = .ok w')
    {t' : Thread} (ht' : w'.threadAt ix.thread = some t') :
    (∃ a bump nonce schedule closeFiber, ix = .threadCreate a ∧
      t' = createdThread a bump nonce schedule closeFiber ∧
      initialSchedule e.toHost a.trigger a.clock a.thread = .ok schedule ∧
      compileToBytes a.order (closeThreadInstruction a.authority a.thread) = .ok closeFiber) ∨
    (∃ a t, ix = .threadUpdate a ∧ w.threadAt ix.thread = some t ∧
      updatedThread e a t = .ok t') ∨
    (∃ t, w.threadAt ix.thread = some t ∧ t' = { t with
      fiberIds := t'.fiberIds, fiberCursor := t'.fiberCursor, fiberNextId := t'.fiberNextId }) := by
  have heffect := process_effect h ht'
  cases ix with
  | threadCreate a =>
    obtain ⟨bump, nonce, schedule, closeFiber, hstored⟩ := threadCreate_stored h ht'
    exact Or.inl ⟨a, bump, nonce, schedule, closeFiber, rfl, hstored⟩
  | threadUpdate a =>
    obtain ⟨t, ht, hu⟩ := heffect
    exact Or.inr (Or.inl ⟨a, t, rfl, ht, hu⟩)
  | fiberCreate a =>
    obtain ⟨t, ht, rfl⟩ := heffect
    exact Or.inr (Or.inr ⟨t, ht, rfl⟩)
  | fiberUpdate a =>
    obtain ⟨t, ht, rfl⟩ := heffect
    refine Or.inr (Or.inr ⟨t, ht, ?_⟩)
    unfold Thread.trackUpdated
    split_ifs <;> rfl
  | fiberClose a =>
    obtain ⟨t, ht, -, rfl⟩ := heffect
    refine Or.inr (Or.inr ⟨t, ht, ?_⟩)
    unfold Thread.untrackClosed Thread.advanceToNextFiber
    simp only
    split_ifs <;> rfl
  | fiberSwap a =>
    obtain ⟨t, ht, -, rfl⟩ := heffect
    refine Or.inr (Or.inr ⟨t, ht, ?_⟩)
    unfold Thread.untrackSwapped
    simp only
    split_ifs <;> rfl

/-- What successful instructions and executions establish holds of every reachable thread. -/
theorem Reachable.holds {e : Env} {thread : Pubkey} {I : Thread → Prop}
    (hix : ∀ w ix w' t', process e ix w = .ok w' → ix.thread = thread →
      w'.threadAt thread = some t' → Holds thread I w → I t')
    (hexec : ∀ cpi a w w' s (x : Execution e cpi a w w' s), a.thread = thread →
      w.threadAt thread = some x.thread → I x.thread → I x.finished)
    {w : Ledger} (h : Reachable e thread w) : Holds thread I w := by
  obtain ⟨w₀, events, hnone, hrun⟩ := h
  refine hrun.invariant (I := Holds thread I) (fun u ev u' hu hstep t' ht' => ?_) fun t ht => ?_
  · rcases step_cases hstep ht' with ⟨ix, rfl, -⟩ | ⟨cpi, a, s, x, rfl, hx, ha, rfl⟩ |
      ⟨cpi, a, -, hsame, -⟩ | ⟨-, hsame⟩
    · exact hix u ix u' t' hstep.2 hstep.1 ht' hu
    · exact hexec cpi a u u' s x ha hx (hu _ hx)
    · exact hu t' hsame
    · exact hu t' hsame
  · rw [hnone] at ht
    exact absurd ht (by simp)

theorem threadCreate_reachable {e : Env} {a : ThreadCreateArgs} {w w' : Ledger}
    (hnone : w.threadAt a.thread = none) (h : threadCreate e a w = .ok w') :
    Reachable e a.thread w' :=
  ⟨w, [.instruction (.threadCreate a)], hnone, .cons ⟨rfl, h⟩ (.nil w')⟩

theorem sorted_effect {e : Env} {before : Option Thread} {after : Thread} {ix : Ix}
    (h : Effect e before after ix)
    (hs : ∀ t, before = some t → t.fiberIds.Pairwise (· < ·)) :
    after.fiberIds.Pairwise (· < ·) := by
  cases ix with
  | threadCreate a =>
    obtain ⟨bump, nonce, schedule, closeFiber, rfl⟩ := h
    unfold createdThread
    simp only
    split <;> simp
  | threadUpdate a =>
    obtain ⟨t, ht, hu⟩ := h
    rw [updatedThread_eq hu]
    exact hs t ht
  | fiberCreate a =>
    obtain ⟨t, ht, rfl⟩ := h
    exact Thread.tracked_sorted (hs t ht) _
  | fiberUpdate a =>
    obtain ⟨t, ht, rfl⟩ := h
    split
    · rw [Thread.trackUpdated_fiberIds]
      exact Thread.tracked_sorted (hs t ht) _
    · exact hs t ht
  | fiberClose a =>
    obtain ⟨t, ht, -, rfl⟩ := h
    rw [Thread.untrackClosed_fiberIds]
    exact (hs t ht).filter _
  | fiberSwap a =>
    obtain ⟨t, ht, -, rfl⟩ := h
    rw [Thread.untrackSwapped_fiberIds]
    exact (hs t ht).filter _

theorem sorted_step {e : Env} {thread : Pubkey} {w w' : Ledger} {ev : Event}
    (h : Step e thread w ev w') (hs : Holds thread (fun t => t.fiberIds.Pairwise (· < ·)) w) :
    Holds thread (fun t => t.fiberIds.Pairwise (· < ·)) w' := by
  intro t' ht'
  rcases step_cases h ht' with ⟨ix, rfl, heffect⟩ | ⟨cpi, a, s, x, rfl, hx, -, rfl⟩ |
    ⟨cpi, a, -, hsame, -⟩ | ⟨-, hsame⟩
  · exact sorted_effect heffect hs
  · rw [x.finished_fiberIds]
    exact hs _ hx
  · exact hs t' hsame
  · exact hs t' hsame

/-- The tracked indices of a thread are strictly increasing in every reachable state. -/
theorem sorted_of_reachable {e : Env} {thread : Pubkey} {w : Ledger} (h : Reachable e thread w) :
    Holds thread (fun t => t.fiberIds.Pairwise (· < ·)) w := by
  obtain ⟨w₀, events, hnone, hrun⟩ := h
  refine hrun.invariant (fun u ev v hu hstep => sorted_step hstep hu) fun t ht => ?_
  rw [hnone] at ht
  exact absurd ht (by simp)

/-- Every tracked index is behind the next id. -/
def IndicesBehind (t : Thread) : Prop := ∀ i ∈ t.fiberIds, Behind i t.fiberNextId

theorem behind_effect {e : Env} {before : Option Thread} {after : Thread} {ix : Ix}
    (h : Effect e before after ix) (hb : ∀ t, before = some t → IndicesBehind t) :
    IndicesBehind after := by
  cases ix with
  | threadCreate a =>
    obtain ⟨bump, nonce, schedule, closeFiber, rfl⟩ := h
    intro i hi
    unfold createdThread at hi ⊢
    simp only at hi ⊢
    split at hi
    · rename_i hsome
      rw [if_pos hsome, List.mem_singleton.mp hi]
      exact Or.inl (by decide)
    · exact absurd hi (by simp)
  | threadUpdate a =>
    obtain ⟨t, ht, hu⟩ := h
    rw [updatedThread_eq hu]
    exact hb t ht
  | fiberCreate a =>
    obtain ⟨t, ht, rfl⟩ := h
    intro i hi
    exact Thread.behind_tracked (hb t ht) (Thread.mem_tracked.mp hi)
  | fiberUpdate a =>
    obtain ⟨t, ht, rfl⟩ := h
    split
    · intro i hi
      unfold Thread.trackUpdated at hi ⊢
      split at hi
      · rename_i hmem
        rw [if_pos hmem]
        exact hb t ht i hi
      · rename_i hmem
        rw [if_neg hmem]
        exact Thread.behind_tracked (hb t ht) (Thread.mem_insertId.mp hi)
    · exact hb t ht
  | fiberClose a =>
    obtain ⟨t, ht, -, rfl⟩ := h
    intro i hi
    rw [Thread.untrackClosed_fiberIds] at hi
    rw [Thread.untrackClosed_fiberNextId]
    exact hb t ht i (List.mem_filter.mp hi).1
  | fiberSwap a =>
    obtain ⟨t, ht, -, rfl⟩ := h
    intro i hi
    rw [Thread.untrackSwapped_fiberIds] at hi
    rw [Thread.untrackSwapped_fiberNextId]
    exact hb t ht i (List.mem_filter.mp hi).1

/-- The bookkeeping of indices in every reachable state: they are strictly increasing
and behind the next id. -/
theorem indices_of_reachable {e : Env} {thread : Pubkey} {w : Ledger} (h : Reachable e thread w)
    {t : Thread} (ht : w.threadAt thread = some t) :
    t.fiberIds.Pairwise (· < ·) ∧
      ∀ i ∈ t.fiberIds, i < t.fiberNextId ∨ (i = 255 ∧ t.fiberNextId = 255) := by
  refine ⟨sorted_of_reachable h t ht, ?_⟩
  refine h.holds (I := IndicesBehind) (fun u ix u' t' hp hix ht' hu => ?_)
    (fun cpi a u u' s x _ _ hx => ?_) t ht
  · subst hix
    exact behind_effect (process_effect hp ht') hu
  · obtain ⟨-, -, -, -, hnext, -⟩ := x.finished_frame
    intro i hi
    rw [x.finished_fiberIds] at hi
    rw [hnext]
    exact hx i hi

/-! ## A thread with two fibers -/

/-- The authority of thread 1 adds a memo as fiber 1. -/
def sampleFiberCreate : FiberCreateArgs :=
  ⟨5, 1, sampleEnv.pubkey 1 1, 1, FiberProgram.sampleMemo 1, 0, [], FiberProgram.insertionOrder⟩

def twoFibers (trigger : Trigger) : Result Ledger := do
  let w ← threadCreate sampleEnv (sampleCreate trigger) payerLedger
  fiberCreate sampleEnv sampleFiberCreate w

theorem twoFibers_reachable {trigger : Trigger} {w : Ledger} (h : twoFibers trigger = .ok w) :
    Reachable sampleEnv 1 w := by
  simp only [twoFibers, bind_eq_ok] at h
  obtain ⟨w₁, hcreate, hfiber⟩ := h
  have h₁ : Step sampleEnv 1 payerLedger (.instruction (.threadCreate (sampleCreate trigger))) w₁ :=
    ⟨rfl, hcreate⟩
  have h₂ : Step sampleEnv 1 w₁ (.instruction (.fiberCreate sampleFiberCreate)) w :=
    ⟨rfl, hfiber⟩
  exact ⟨payerLedger, _, rfl, .cons h₁ (.cons h₂ (.nil w))⟩

set_option maxRecDepth 20000 in
theorem indices_of_twoFibers :
    ∃ w t, Reachable sampleEnv 1 w ∧ w.threadAt 1 = some t ∧ t.fiberIds = [0, 1] ∧
      t.fiberNextId = 2 ∧ t.fiberIds.Pairwise (· < ·) := by
  have hrun : (twoFibers (.interval 10 false 0)).map
      (fun w => (w.threadAt 1).map fun t => (t.fiberIds, t.fiberNextId)) =
        .ok (some ([0, 1], 2)) := by
    decide +kernel
  obtain ⟨w, hw, hstored⟩ := map_eq_ok.mp hrun
  obtain ⟨t, ht, hfields⟩ := Option.map_eq_some_iff.mp hstored
  obtain ⟨hids, hnext⟩ := Prod.mk.inj hfields
  have hr := twoFibers_reachable hw
  exact ⟨w, t, hr, ht, hids, hnext, (indices_of_reachable hr ht).1⟩

/-- A new thread fires once; what it found and what it left. -/
def fireOnce (trigger : Trigger) (fiberCursor : UInt8) (s : Signal) :
    Result (Ledger × Ledger × Outcome) := do
  let w ← twoFibers trigger
  let (w', o) ← threadExec sampleEnv (memoCpi s) (sampleArgs fiberCursor) w
  pure (w, w', o)

theorem fireOnce_eq_ok {trigger : Trigger} {fiberCursor : UInt8} {s : Signal} {w w' : Ledger}
    {o : Outcome} (h : fireOnce trigger fiberCursor s = .ok (w, w', o)) : Reachable sampleEnv 1 w ∧
      threadExec sampleEnv (memoCpi s) (sampleArgs fiberCursor) w = .ok (w', o) := by
  simp only [fireOnce, bind_eq_ok, pure_eq_ok, Prod.exists, Prod.mk.injEq] at h
  obtain ⟨u, hu, u', o', hexec, rfl, rfl, rfl⟩ := h
  exact ⟨twoFibers_reachable hu, hexec⟩

/-- Two executions of a new thread, with the outcomes and what they found stored. -/
def fireTwice (trigger : Trigger) (first second : Signal) :
    Result (Ledger × Ledger × Ledger × Outcome × Outcome) := do
  let w ← twoFibers trigger
  let (w₁, o₁) ← threadExec sampleEnv (memoCpi first) (sampleArgs 0) w
  let (w₂, o₂) ← threadExec sampleEnv (memoCpi second) (sampleArgs 1) w₁
  pure (w, w₁, w₂, o₁, o₂)

theorem fireTwice_run {trigger : Trigger} {first second : Signal} {w w₁ w₂ : Ledger}
    {o₁ o₂ : Outcome} (h : fireTwice trigger first second = .ok (w, w₁, w₂, o₁, o₂)) :
    Reachable sampleEnv 1 w ∧ ∃ t t', w.threadAt 1 = some t ∧ w₁.threadAt 1 = some t' ∧
      Step sampleEnv 1 w (.exec (memoCpi first) (sampleArgs 0) t o₁) w₁ ∧
      Step sampleEnv 1 w₁ (.exec (memoCpi second) (sampleArgs 1) t' o₂) w₂ := by
  simp only [fireTwice, bind_eq_ok, pure_eq_ok, Prod.exists, Prod.mk.injEq] at h
  obtain ⟨u, hu, u₁, p₁, h₁, u₂, p₂, h₂, rfl, rfl, rfl, rfl, rfl⟩ := h
  obtain ⟨t, ht, hstep⟩ := exec_step h₁
  obtain ⟨t', ht', hstep'⟩ := exec_step h₂
  exact ⟨twoFibers_reachable hu, t, t', ht, ht', hstep, hstep'⟩

end Antegen.ThreadProgram
