import Antegen.ThreadRuns

/-!
# The cursor along a run

Two results on the cursor of a thread. It stays among the tracked indices as long
as signals and first fibers aim at one. And the fibers that run are the ones the
cursor designates, as long as executors pass its value on: the index that is
executed is their argument, which nothing compares with the stored cursor.
-/
namespace Antegen.ThreadProgram

open Transition

/-- The cursor of a thread with fibers is one of their indices. -/
def CursorTracked (t : Thread) : Prop := t.fiberIds ≠ [] → t.fiberCursor ∈ t.fiberIds

/-- An instruction that tracks the first index of a thread tracks its cursor. -/
def FirstAtCursor (before : Option Thread) : Ix → Prop
  | .fiberCreate a => ∀ t, before = some t → t.fiberIds = [] → a.fiberIndex = t.fiberCursor
  | .fiberUpdate a => a.track = true →
      ∀ t, before = some t → t.fiberIds = [] → a.fiberIndex = t.fiberCursor
  | _ => True

/-- A signal that names an index names a tracked one. -/
def NamesTracked (t : Thread) : Signal → Prop
  | .next index => index ∈ t.fiberIds
  | .update _ _ (some index) => index ∈ t.fiberIds
  | _ => True

def AimsAtTracked (thread : Pubkey) (w : Ledger) : Event → Prop
  | .instruction ix => FirstAtCursor (w.threadAt thread) ix
  | .exec _ _ before (.fiber s) => NamesTracked before s
  | _ => True

theorem cursorTracked_insert_iff {t t' : Thread} {index : UInt8}
    (hids : t'.fiberIds = if index ∈ t.fiberIds then t.fiberIds
      else Thread.insertId t.fiberIds index)
    (hcursor : t'.fiberCursor = t.fiberCursor) (ht : CursorTracked t) :
    CursorTracked t' ↔ (t.fiberIds = [] → index = t.fiberCursor) := by
  have hmem : ∀ j, j ∈ t'.fiberIds ↔ j = index ∨ j ∈ t.fiberIds := by
    intro j
    rw [hids]
    exact Thread.mem_tracked
  have hne : t'.fiberIds ≠ [] := List.ne_nil_of_mem ((hmem index).mpr (Or.inl rfl))
  unfold CursorTracked
  rw [hcursor, hmem]
  by_cases hempty : t.fiberIds = []
  · constructor
    · intro h _
      rcases h hne with he | he
      · exact he.symm
      · rw [hempty] at he
        exact absurd he (by simp)
    · intro h _
      exact Or.inl (h hempty).symm
  · exact ⟨fun _ he => absurd he hempty, fun _ _ => Or.inr (ht hempty)⟩

/-- Closing a fiber leaves the cursor on another one. -/
theorem cursorTracked_untrackClosed {t : Thread} (hs : t.fiberIds.Pairwise (· < ·))
    (ht : CursorTracked t) {index : UInt8} (hmem : index ∈ t.fiberIds) :
    CursorTracked (t.untrackClosed index) := by
  intro hne
  rw [Thread.untrackClosed_fiberIds] at hne ⊢
  rw [Thread.untrackClosed_fiberCursor, if_neg hne]
  have hids : t.fiberIds ≠ [] := List.ne_nil_of_mem hmem
  obtain ⟨other, hother⟩ := List.exists_mem_of_ne_nil _ hne
  simp only [List.mem_filter, decide_eq_true_eq] at hother
  have hlen : 1 < t.fiberIds.length := by
    by_contra hshort
    have hone : t.fiberIds.length = 1 := by
      have hpos := List.length_pos_iff.mpr hids
      omega
    obtain ⟨b, hb⟩ := List.length_eq_one_iff.mp hone
    rw [hb, List.mem_singleton] at hmem hother
    exact hother.2 (hother.1.trans hmem.symm)
  have hnodup : t.fiberIds.Nodup := hs.imp fun h => UInt8.ne_of_lt h
  by_cases hc : t.fiberCursor = index
  · rw [if_pos ⟨hc, hlen⟩]
    simp only [List.mem_filter, decide_eq_true_eq]
    refine ⟨cyclicNext_mem hids _, ?_⟩
    rw [← hc] at hmem ⊢
    exact cyclicNext_ne hnodup hmem hlen
  · rw [if_neg fun h => hc h.1]
    simp only [List.mem_filter, decide_eq_true_eq]
    exact ⟨ht hids, hc⟩

/-- Swapping a fiber away leaves the cursor on another one. -/
theorem cursorTracked_untrackSwapped {t : Thread} (ht : CursorTracked t) {index : UInt8} :
    CursorTracked (t.untrackSwapped index) := by
  intro hne
  rw [Thread.untrackSwapped_fiberIds] at hne ⊢
  rw [Thread.untrackSwapped_fiberCursor]
  by_cases hc : t.fiberCursor = index
  · rw [if_pos hc]
    obtain ⟨x, xs, hx⟩ := List.exists_cons_of_ne_nil hne
    rw [hx]
    simp
  · rw [if_neg hc]
    have hids : t.fiberIds ≠ [] := by
      intro hempty
      rw [hempty] at hne
      exact hne rfl
    simp only [List.mem_filter, decide_eq_true_eq]
    exact ⟨ht hids, hc⟩

/-- The step lemma for instructions. -/
theorem effect_cursorTracked_iff {e : Env} {before : Option Thread} {after : Thread} {ix : Ix}
    (h : Effect e before after ix)
    (hI : ∀ t, before = some t → CursorTracked t ∧ t.fiberIds.Pairwise (· < ·)) :
    CursorTracked after ↔ FirstAtCursor before ix := by
  cases ix with
  | threadCreate a =>
    obtain ⟨bump, nonce, schedule, closeFiber, rfl⟩ := h
    refine iff_of_true (fun hne => ?_) trivial
    simp only [createdThread] at hne ⊢
    split
    · simp
    · rename_i hnone
      rw [if_neg hnone] at hne
      exact absurd rfl hne
  | threadUpdate a =>
    obtain ⟨t, ht, hu⟩ := h
    refine iff_of_true ?_ trivial
    rw [updatedThread_eq hu]
    exact (hI t ht).1
  | fiberCreate a =>
    obtain ⟨t, rfl, rfl⟩ := h
    rw [cursorTracked_insert_iff (t.trackCreated_fiberIds a.fiberIndex) rfl (hI t rfl).1]
    exact ⟨fun h u hu => by rw [← Option.some.inj hu]; exact h, fun h => h t rfl⟩
  | fiberUpdate a =>
    obtain ⟨t, rfl, rfl⟩ := h
    by_cases htrack : a.track = true
    · rw [if_pos htrack, cursorTracked_insert_iff (t.trackUpdated_fiberIds a.fiberIndex)
        (t.trackUpdated_fiberCursor a.fiberIndex) (hI t rfl).1]
      exact ⟨fun h _ u hu => by rw [← Option.some.inj hu]; exact h, fun h => h htrack t rfl⟩
    · rw [if_neg htrack]
      exact iff_of_true (hI t rfl).1 fun h => absurd h htrack
  | fiberClose a =>
    obtain ⟨t, ht, hmem, rfl⟩ := h
    exact iff_of_true (cursorTracked_untrackClosed (hI t ht).2 (hI t ht).1 hmem) trivial
  | fiberSwap a =>
    obtain ⟨t, ht, -, rfl⟩ := h
    exact iff_of_true (cursorTracked_untrackSwapped (hI t ht).1) trivial

/-- The step lemma for executions. -/
theorem finished_cursorTracked_iff {e : Env} {cpi : Cpi} {a : ExecArgs} {w w' : Ledger}
    {s : Signal} (x : Execution e cpi a w w' s) :
    CursorTracked x.finished ↔ NamesTracked x.thread s := by
  have hvalid := x.valid
  have hnext : (x.thread.sync a.fiberCursor).nextFiberIndex ∈ x.thread.fiberIds := by
    rw [Thread.nextFiberIndex, Thread.sync_fiberIds]
    exact cyclicNext_mem x.nonempty _
  have hiff : CursorTracked x.finished ↔
      (x.thread.sync a.fiberCursor).cursorAfter s ∈ x.thread.fiberIds := by
    unfold CursorTracked
    rw [x.finished_fiberIds, x.finished_fiberCursor]
    exact ⟨fun h => h x.nonempty, fun h _ => h⟩
  rw [hiff]
  cases s with
  | next index => exact Iff.rfl
  | update paused trigger index =>
    cases index with
    | some index => exact Iff.rfl
    | none => exact iff_of_true hnext trivial
  | none => exact iff_of_true hnext trivial
  | chain => exact iff_of_true hvalid trivial
  | close => exact iff_of_true hvalid trivial
  | again => exact iff_of_true hvalid trivial

/-- The cursor over whole runs. As long as signals name tracked indices and the
first fiber of a thread is created at its cursor, the cursor is tracked and no
execution outside a chain fails for it. From there the next step leaves a tracked
cursor exactly if it meets these conditions too. -/
theorem cursor_tracked_iff {e : Env} {thread : Pubkey} {w₀ w : Ledger} {events : List Event}
    (h₀ : w₀.threadAt thread = none)
    (h : Run (Guarded (Step e thread) (AimsAtTracked thread)) w₀ events w) :
    Holds thread CursorTracked w ∧
      (∀ t, w.threadAt thread = some t → t.fiberSignal ≠ .chain → ∀ c,
        (t.sync c).validateForExecution ≠ .error (.thread .invalidExecIndex)) ∧
      ∀ ev w' t', Step e thread w ev w' → w'.threadAt thread = some t' →
        (CursorTracked t' ↔ AimsAtTracked thread w ev) := by
  have hI : Holds thread (fun t => CursorTracked t ∧ t.fiberIds.Pairwise (· < ·)) w := by
    refine holds_of_run (fun u ix t' hguard hu heffect => ?_)
      (fun cpi a u u' s x _ hguard hx => ?_) h (fun t ht => ?_)
    · exact ⟨(effect_cursorTracked_iff heffect hu).mpr hguard,
        sorted_effect heffect fun t ht => (hu t ht).2⟩
    · exact ⟨(finished_cursorTracked_iff x).mpr hguard, by rw [x.finished_fiberIds]; exact hx.2⟩
    · rw [h₀] at ht
      exact absurd ht (by simp)
  refine ⟨fun t ht => (hI t ht).1, fun t ht hchain c herr => ?_, fun ev w' t' hstep ht' => ?_⟩
  · have htracked := (hI t ht).1
    have hcursor : (t.sync c).fiberCursor = t.fiberCursor := by
      rw [Thread.sync_fiberCursor, if_neg hchain]
    unfold Thread.validateForExecution at herr
    rw [Thread.sync_fiberIds, hcursor] at herr
    by_cases hids : t.fiberIds = []
    · simp [hids, require, bind, Except.bind] at herr
    · simp [hids, htracked hids, require, bind, Except.bind] at herr
  · rcases step_cases hstep ht' with ⟨ix, rfl, heffect⟩ | ⟨cpi, a, s, x, rfl, -, -, rfl⟩ |
      ⟨cpi, a, rfl, hsame, -⟩ | ⟨rfl, hsame⟩
    · exact effect_cursorTracked_iff heffect hI
    · exact finished_cursorTracked_iff x
    · exact iff_of_true (hI t' hsame).1 trivial
    · exact iff_of_true (hI t' hsame).1 trivial

/-- Creation of thread 1 and one execution of its memo. -/
def createAndFire (trigger : Trigger) (s : Signal) : Result (Ledger × Outcome) := do
  let w ← threadCreate sampleEnv (sampleCreate trigger) payerLedger
  threadExec sampleEnv (memoCpi s) (sampleArgs 0) w

theorem createAndFire_run {trigger : Trigger} {s : Signal} {w : Ledger} {o : Outcome}
    (h : createAndFire trigger s = .ok (w, o)) : ∃ w₁ t, w₁.threadAt 1 = some t ∧
      Step sampleEnv 1 payerLedger (.instruction (.threadCreate (sampleCreate trigger))) w₁ ∧
      Step sampleEnv 1 w₁ (.exec (memoCpi s) (sampleArgs 0) t o) w := by
  simp only [createAndFire, bind_eq_ok] at h
  obtain ⟨w₁, hcreate, hexec⟩ := h
  obtain ⟨t, ht, hstep⟩ := exec_step hexec
  exact ⟨w₁, t, ht, ⟨rfl, hcreate⟩, hstep⟩

set_option maxRecDepth 20000 in
/-- A memo that returns `Next` with an untracked index strands its thread. -/
theorem next_strands_cursor : payerLedger.threadAt 1 = none ∧
    ¬ ∀ events w, Run (Step sampleEnv 1) payerLedger events w → Holds 1 CursorTracked w := by
  refine ⟨rfl, fun hall => ?_⟩
  have hrun : (createAndFire (.interval 10 false 0) (.next 5)).map
      (fun r => (r.1.threadAt 1).map fun t => (t.fiberIds, t.fiberCursor)) =
        .ok (some ([0], 5)) := by
    decide +kernel
  obtain ⟨⟨w, o⟩, hfire, hstored⟩ := map_eq_ok.mp hrun
  obtain ⟨w₁, t, -, h₁, h₂⟩ := createAndFire_run hfire
  obtain ⟨t', ht', hids⟩ := Option.map_eq_some_iff.mp hstored
  obtain ⟨hids, hcursor⟩ := Prod.mk.inj hids
  have htracked := hall _ w (.cons h₁ (.cons h₂ (.nil w))) t' ht'
  rw [CursorTracked, hids, hcursor] at htracked
  exact absurd htracked (by decide)

set_option maxRecDepth 20000 in
theorem cursor_tracked_after_memo :
    ∃ events w t, Run (Guarded (Step sampleEnv 1) (AimsAtTracked 1)) payerLedger events w ∧
      w.threadAt 1 = some t ∧ CursorTracked t := by
  have hrun : (createAndFire (.interval 10 false 0) (.next 0)).map
      (fun r => (r.2, (r.1.threadAt 1).isSome)) = .ok (.fiber (.next 0), true) := by
    decide +kernel
  have hids : (threadCreate sampleEnv (sampleCreate (.interval 10 false 0)) payerLedger).map
      (fun w => (w.threadAt 1).map Thread.fiberIds) = .ok (some [0]) := by
    decide +kernel
  obtain ⟨⟨w, o⟩, hfire, hstored⟩ := map_eq_ok.mp hrun
  obtain ⟨rfl, hsome⟩ := Prod.mk.inj hstored
  obtain ⟨w₁, t, ht, h₁, h₂⟩ := createAndFire_run hfire
  obtain ⟨t', ht'⟩ := Option.isSome_iff_exists.mp hsome
  have hcreate : threadCreate sampleEnv (sampleCreate (.interval 10 false 0)) payerLedger =
      .ok w₁ := h₁.2
  rw [hcreate] at hids
  have htracked : t.fiberIds = [0] := by
    have hmap : (w₁.threadAt 1).map Thread.fiberIds = some [0] := Except.ok.inj hids
    rw [ht] at hmap
    exact Option.some.inj hmap
  have hnames : NamesTracked t (.next 0) := by
    rw [NamesTracked, htracked]
    decide
  have hguarded : Run (Guarded (Step sampleEnv 1) (AimsAtTracked 1)) payerLedger
      [.instruction (.threadCreate (sampleCreate (.interval 10 false 0))),
        .exec (memoCpi (.next 0)) (sampleArgs 0) t (.fiber (.next 0))] w :=
    .cons ⟨trivial, h₁⟩ (.cons ⟨hnames, h₂⟩ (.nil w))
  exact ⟨_, w, t', hguarded, ht', (cursor_tracked_iff rfl hguarded).1 t' ht'⟩

end Antegen.ThreadProgram
