import Antegen.ThreadRuns

/-!
# Triggers that fire once, and closes that are honoured

An immediate thread asks for its own close when it has fired, and a timestamp thread
pauses itself. Between two re-armings either fires at most once, chains counted as
one firing. Slot and epoch threads do neither and fire again. The pause of a
timestamp thread also hits one whose fiber has just asked for its close.
-/
namespace Antegen.ThreadProgram

open Transition

/-- The triggers that stop a thread by themselves. -/
def OneShot (t : Thread) : Prop := t.trigger.isImmediate = true ∨ t.trigger.isTimestamp = true

/-- Creation of the thread, or a new trigger or pause state for it. -/
def Rearms : Event → Prop
  | .instruction (.threadCreate _) => True
  | .instruction (.threadUpdate a) => a.trigger.isSome = true ∨ a.paused.isSome = true
  | .exec _ _ _ (.fiber s) => s.newTrigger.isSome = true ∨ s.unpauses = true
  | _ => False

/-- An execution that is neither a continuation of a chain nor the close path. -/
def Event.fires : Event → Bool
  | .exec _ _ before (.fiber _) => before.fiberSignal ≠ .chain
  | _ => false

/-- Nothing but a continuation of a chain or a close can come next. -/
def Spent (t : Thread) : Prop :=
  t.fiberSignal = .chain ∨ t.fiberSignal = .close ∨ t.paused = true

/-- Fiber instructions leave trigger, signal and pause state alone. -/
theorem effect_keeps {e : Env} {before : Option Thread} {after : Thread} {ix : Ix}
    (h : Effect e before after ix) (hquiet : ¬ Rearms (.instruction ix)) :
    ∃ t, before = some t ∧ after.trigger = t.trigger ∧ after.fiberSignal = t.fiberSignal ∧
      after.paused = t.paused := by
  cases ix with
  | threadCreate a => exact absurd trivial hquiet
  | threadUpdate a =>
    obtain ⟨t, ht, hu⟩ := h
    have hnone : a.trigger = none ∧ a.paused = none := by
      simpa [Rearms, not_or] using hquiet
    rw [updatedThread, hnone.1, hnone.2] at hu
    refine ⟨t, ht, ?_⟩
    rw [← Except.ok.inj hu]
    exact ⟨rfl, rfl, rfl⟩
  | fiberCreate a =>
    obtain ⟨t, ht, rfl⟩ := h
    exact ⟨t, ht, rfl, rfl, rfl⟩
  | fiberUpdate a =>
    obtain ⟨t, ht, rfl⟩ := h
    refine ⟨t, ht, ?_⟩
    unfold Thread.trackUpdated
    split_ifs <;> exact ⟨rfl, rfl, rfl⟩
  | fiberClose a =>
    obtain ⟨t, ht, -, rfl⟩ := h
    refine ⟨t, ht, ?_⟩
    unfold Thread.untrackClosed Thread.advanceToNextFiber
    simp only
    split_ifs <;> exact ⟨rfl, rfl, rfl⟩
  | fiberSwap a =>
    obtain ⟨t, ht, -, rfl⟩ := h
    refine ⟨t, ht, ?_⟩
    unfold Thread.untrackSwapped
    simp only
    split_ifs <;> exact ⟨rfl, rfl, rfl⟩

section Fired

variable {e : Env} {cpi : Cpi} {a : ExecArgs} {w w' : Ledger} {s : Signal}
  (x : Execution e cpi a w w' s)

include x

/-- After an execution that does not re-arm it, a one-shot thread is spent. -/
theorem spent_finished (hone : OneShot x.thread) (hnew : s.newTrigger = none)
    (hunpause : s.unpauses = false) : OneShot x.finished ∧ Spent x.finished := by
  constructor
  · unfold OneShot
    rw [x.finished_trigger, hnew]
    exact hone
  · unfold Spent
    rw [x.finished_fiberSignal, x.finished_paused]
    by_cases hs : s = .chain
    · exact Or.inl (if_pos hs)
    · rw [if_neg hs]
      rcases hone with himm | hts
      · exact Or.inr (Or.inl (if_pos (Or.inr himm)))
      · exact Or.inr (Or.inr (if_pos ⟨hts, hs, by simp [hunpause]⟩))

theorem not_fires_of_spent (hspent : Spent x.thread) : x.thread.fiberSignal = .chain := by
  rcases hspent with hchain | hclose | hpaused
  · exact hchain
  · exact absurd hclose x.notClosing
  · exact absurd (hpaused.symm.trans x.active) (by simp)

end Fired

/-- The step lemma: what a step that does not re-arm keeps. -/
theorem oneShot_step {e : Env} {thread : Pubkey} {w w' : Ledger} {ev : Event}
    (h : Step e thread w ev w') (hquiet : ¬ Rearms ev) (hone : Holds thread OneShot w) :
    Holds thread OneShot w' ∧
      ((ev.fires = true ∨ Holds thread Spent w) → Holds thread Spent w') := by
  have hboth : ∀ t', w'.threadAt thread = some t' →
      OneShot t' ∧ ((ev.fires = true ∨ Holds thread Spent w) → Spent t') := by
    intro t' ht'
    rcases step_cases h ht' with ⟨ix, rfl, heffect⟩ | ⟨cpi, a, s, x, rfl, hx, -, rfl⟩ |
      ⟨cpi, a, rfl, hsame, -⟩ | ⟨rfl, hsame⟩
    · obtain ⟨t, ht, htrigger, hsignal, hpaused⟩ := effect_keeps heffect hquiet
      constructor
      · rw [OneShot, htrigger]
        exact hone t ht
      · intro hor
        rcases hor with hfires | hspent
        · exact absurd hfires (by simp [Event.fires])
        · rw [Spent, hsignal, hpaused]
          exact hspent t ht
    · simp only [Rearms, not_or, Bool.not_eq_true, Option.isSome_eq_false_iff,
        Option.isNone_iff_eq_none] at hquiet
      have hfin := spent_finished x (hone _ hx) hquiet.1 hquiet.2
      exact ⟨hfin.1, fun _ => hfin.2⟩
    · refine ⟨hone t' hsame, fun hor => ?_⟩
      rcases hor with hfires | hspent
      · exact absurd hfires (by simp [Event.fires])
      · exact hspent t' hsame
    · refine ⟨hone t' hsame, fun hor => ?_⟩
      rcases hor with hfires | hspent
      · exact absurd hfires (by simp [Event.fires])
      · exact hspent t' hsame
  exact ⟨fun t' ht' => (hboth t' ht').1, fun hor t' ht' => (hboth t' ht').2 hor⟩

/-- A spent thread does not fire. -/
theorem not_fires {e : Env} {thread : Pubkey} {w w' : Ledger} {ev : Event}
    (h : Step e thread w ev w') (hspent : Holds thread Spent w) : ev.fires = false := by
  cases ev with
  | instruction ix => rfl
  | other => rfl
  | exec cpi a before outcome =>
    cases outcome with
    | closePath => rfl
    | fiber s =>
      obtain ⟨rfl, hbefore, hexec⟩ := h
      obtain ⟨x⟩ := threadExec_fiber hexec
      have hthread : before = x.thread := Option.some.inj (hbefore.symm.trans x.stored)
      have hchain := not_fires_of_spent x (hspent _ x.stored)
      simp [Event.fires, hthread, hchain]

/-- The run lemma: firings in a window that only its last event may end. -/
theorem fires_in_window {e : Env} {thread : Pubkey} {w w' : Ledger} {events : List Event}
    (h : Run (Step e thread) w events w') (hquiet : ∀ ev ∈ events.dropLast, ¬ Rearms ev)
    (hone : Holds thread OneShot w) :
    events.countP Event.fires ≤ 1 ∧
      (Holds thread Spent w → events.countP Event.fires = 0) := by
  induction h with
  | nil u => simp
  | @cons u v z ev events hstep hrun ih =>
    cases hrun with
    | nil =>
      rw [List.countP_cons, List.countP_nil]
      constructor
      · split <;> omega
      · intro hspent
        rw [not_fires hstep hspent]
        simp
    | @cons _ v' _ ev' rest hstep' hrun' =>
      have hev : ¬ Rearms ev := hquiet ev (by simp)
      obtain ⟨hone', hspent'⟩ := oneShot_step hstep hev hone
      obtain ⟨hle, hzero⟩ := ih (fun x hx => hquiet x (by simp [hx])) hone'
      rw [List.countP_cons]
      constructor
      · by_cases hfires : ev.fires = true
        · rw [hzero (hspent' (Or.inl hfires)), if_pos hfires]
        · rw [if_neg hfires]
          omega
      · intro hspent
        rw [hzero (hspent' (Or.inr hspent)), not_fires hstep hspent]
        simp

/-- Between two re-armings an immediate or timestamp thread fires at most once. The
window starts in any ledger and ends with any event, a re-arming one included. -/
theorem fires_at_most_once {e : Env} {thread : Pubkey} {w w' : Ledger} {events : List Event}
    (hone : Holds thread OneShot w) (h : Run (Step e thread) w events w')
    (hquiet : ∀ ev ∈ events.dropLast, ¬ Rearms ev) : events.countP Event.fires ≤ 1 :=
  (fires_in_window h hquiet hone).1

set_option maxRecDepth 20000 in
/-- Two executions at one clock: of a slot thread, and of a timestamp thread as a chain. -/
theorem fireTwice_evaluated :
    (fireTwice (.slot 60) .none .none).map (fun r => (r.2.2.2,
      (r.1.threadAt 1).map fun t => (t.trigger, t.fiberSignal),
      (r.2.1.threadAt 1).map Thread.fiberSignal)) =
        .ok ((.fiber .none, .fiber .none), some (.slot 60, .none), some .none) ∧
    (fireTwice (.timestamp 60 0) .chain .none).map (fun r => (r.2.2.2,
      (r.1.threadAt 1).map Thread.trigger)) =
        .ok ((.fiber .chain, .fiber .none), some (.timestamp 60 0)) := by
  decide +kernel

/-- A slot thread fires twice at the same clock. -/
theorem slot_fires_twice :
    ∃ w t events w', Reachable sampleEnv 1 w ∧ w.threadAt 1 = some t ∧ t.trigger = .slot 60 ∧
      Run (Step sampleEnv 1) w events w' ∧ (∀ ev ∈ events, ¬ Rearms ev) ∧
      1 < events.countP Event.fires := by
  have hrun := fireTwice_evaluated.1
  simp only [map_eq_ok, Prod.exists, Prod.mk.injEq] at hrun
  obtain ⟨w, w₁, w₂, o₁, o₂, hfire, ⟨rfl, rfl⟩, hstored, hstored'⟩ := hrun
  obtain ⟨hr, t, t', ht, ht', hstep, hstep'⟩ := fireTwice_run hfire
  rw [ht, Option.map_some, Option.some.injEq, Prod.mk.injEq] at hstored
  rw [ht', Option.map_some, Option.some.injEq] at hstored'
  refine ⟨w, t, _, w₂, hr, ht, hstored.1, .cons hstep (.cons hstep' (.nil w₂)), ?_, ?_⟩
  · simp [Rearms, Signal.newTrigger, Signal.unpauses]
  · simp [Event.fires, hstored.2, hstored']

/-- A timestamp thread fires once, in a chain of two executions. -/
theorem timestamp_fires_once :
    ∃ w events w', Reachable sampleEnv 1 w ∧ Run (Step sampleEnv 1) w events w' ∧
      events.length = 2 ∧ events.countP Event.fires ≤ 1 := by
  have hrun := fireTwice_evaluated.2
  simp only [map_eq_ok, Prod.exists, Prod.mk.injEq] at hrun
  obtain ⟨w, w₁, w₂, o₁, o₂, hfire, ⟨rfl, rfl⟩, hstored⟩ := hrun
  obtain ⟨hr, t, t', ht, -, hstep, hstep'⟩ := fireTwice_run hfire
  have hone : Holds 1 OneShot w := by
    intro u hu
    rw [hu, Option.map_some, Option.some.injEq] at hstored
    rw [OneShot, hstored]
    exact Or.inr rfl
  have hquiet : ∀ ev ∈ [Event.exec (memoCpi .chain) (sampleArgs 0) t (.fiber .chain),
      .exec (memoCpi .none) (sampleArgs 1) t' (.fiber .none)].dropLast, ¬ Rearms ev := by
    simp [Rearms, Signal.newTrigger, Signal.unpauses]
  have hsteps := Run.cons hstep (.cons hstep' (.nil w₂))
  exact ⟨w, _, w₂, hr, hsteps, rfl, fires_at_most_once hone hsteps hquiet⟩

/-! ## Pending closes -/

/-- The state that the close path of an execution asks for. -/
def CanClose (t : Thread) : Prop := t.paused = false ∧ t.fiberIds ≠ []

/-- A pending close that is not blocked is what the next execution runs. -/
theorem threadExec_of_canClose {e : Env} {cpi : Cpi} {a : ExecArgs} {w : Ledger} {t : Thread}
    (ht : w.threadAt a.thread = some t)
    (haddr : e.threadAddress t.authority t.id t.bump = some a.thread)
    (hclose : t.fiberSignal = .close) (hcan : CanClose t) (hadmin : a.admin = a.config.admin)
    (hconfig : a.config.paused = false) :
    threadExec e cpi a w = (execClose e cpi a t w).map fun w => (w, .closePath) := by
  have hload : w.loadThread a.thread = .ok t := Ledger.loadThread_eq_ok.mpr ht
  unfold threadExec
  simp [hload, haddr, hcan.1, hcan.2, hadmin, hconfig, hclose, require, bind, Except.bind]

section Closing

variable {e : Env} {cpi : Cpi} {a : ExecArgs} {w w' : Ledger} {s : Signal}
  (x : Execution e cpi a w w' s)

include x

/-- An execution keeps the seeds of the thread. -/
theorem finished_address :
    e.threadAddress x.finished.authority x.finished.id x.finished.bump = some a.thread := by
  obtain ⟨hauthority, hid, hbump, -⟩ := x.finished_frame
  rw [hauthority, hid, hbump]
  exact x.address

/-- A timestamp thread with a close pending got it from its fiber. -/
theorem signal_eq_close (hclose : x.finished.fiberSignal = .close)
    (hts : x.thread.trigger.isTimestamp = true) : s = .close := by
  by_contra hs
  rw [x.finished_fiberSignal, Trigger.isImmediate_of_isTimestamp hts] at hclose
  split_ifs at hclose with hchain hor
  simp [hs] at hor

/-- What pauses a thread that has a close pending. -/
theorem finished_active_iff (hclose : x.finished.fiberSignal = .close) :
    x.finished.paused = false ↔ (x.thread.trigger.isTimestamp = false ∧
      ∀ trigger index, s ≠ .update (some true) trigger index) := by
  rw [x.finished_paused, x.active]
  by_cases hts : x.thread.trigger.isTimestamp = true
  · obtain rfl := signal_eq_close x hclose hts
    rw [if_pos ⟨hts, by simp, by simp [Signal.unpauses]⟩, hts]
    simp
  · rw [if_neg fun hall => hts hall.1, Signal.newPaused_getD_false]
    simp [hts]

end Closing

/-- An execution that ends with a pending close leaves a thread whose next execution
takes the close path, exactly if its trigger was not a timestamp and its fiber did
not ask for a pause. -/
theorem close_honoured_iff {e : Env} {cpi : Cpi} {a : ExecArgs} {w w' : Ledger} {s : Signal}
    (h : threadExec e cpi a w = .ok (w', .fiber s)) {t t' : Thread}
    (ht : w.threadAt a.thread = some t) (ht' : w'.threadAt a.thread = some t')
    (hclose : t'.fiberSignal = .close) :
    (CanClose t' ∧ ∀ cpi' a', a'.thread = a.thread → a'.admin = a'.config.admin →
      a'.config.paused = false →
        threadExec e cpi' a' w' = (execClose e cpi' a' t' w').map fun w => (w, .closePath)) ↔
    (t.trigger.isTimestamp = false ∧ ∀ trigger index, s ≠ .update (some true) trigger index) := by
  obtain ⟨x⟩ := threadExec_fiber h
  obtain rfl : x.thread = t := Option.some.inj (x.stored.symm.trans ht)
  obtain rfl : t' = x.finished := x.eq_finished ht'
  have hids : x.finished.fiberIds ≠ [] := by
    rw [x.finished_fiberIds]
    exact x.nonempty
  have haddr := finished_address x
  rw [← finished_active_iff x hclose]
  constructor
  · intro hcan
    exact hcan.1.1
  · intro hp
    refine ⟨⟨hp, hids⟩, fun cpi' a' hthread hadmin hconfig => ?_⟩
    rw [← hthread] at ht' haddr
    exact threadExec_of_canClose ht' haddr hclose ⟨hp, hids⟩ hadmin hconfig

set_option maxRecDepth 20000 in
/-- An execution that asks for the close: of a timestamp thread, and of an interval thread. -/
theorem fireOnce_evaluated :
    (fireOnce (.timestamp 60 0) 0 .close).map (fun r => (r.2.2,
      (r.2.1.threadAt 1).map fun t => (t.fiberSignal, t.paused))) =
        .ok (.fiber .close, some (.close, true)) ∧
    (fireOnce (.interval 10 false 0) 0 .close).map (fun r => (r.2.2,
      (r.1.threadAt 1).map Thread.trigger, (r.2.1.threadAt 1).map Thread.fiberSignal)) =
        .ok (.fiber .close, some (.interval 10 false 0), some .close) := by
  decide +kernel

/-- A timestamp thread whose fiber asks for the close is paused with it pending. -/
theorem timestamp_close_blocked :
    ∃ w w' t', Reachable sampleEnv 1 w ∧
      threadExec sampleEnv (memoCpi .close) (sampleArgs 0) w = .ok (w', .fiber .close) ∧
      w'.threadAt 1 = some t' ∧ t'.fiberSignal = .close ∧ ¬ CanClose t' := by
  have hrun := fireOnce_evaluated.1
  simp only [map_eq_ok, Prod.exists, Prod.mk.injEq] at hrun
  obtain ⟨w, w', o, hfire, rfl, hstored⟩ := hrun
  obtain ⟨hr, hexec⟩ := fireOnce_eq_ok hfire
  obtain ⟨t', ht', hfields⟩ := Option.map_eq_some_iff.mp hstored
  obtain ⟨hsignal, hpaused⟩ := Prod.mk.inj hfields
  refine ⟨w, w', t', hr, hexec, ht', hsignal, fun hcan => ?_⟩
  exact absurd (hpaused.symm.trans hcan.1) (by simp)

theorem interval_close_honoured :
    ∃ w w' t', threadExec sampleEnv (memoCpi .close) (sampleArgs 0) w = .ok (w', .fiber .close) ∧
      w'.threadAt 1 = some t' ∧ t'.fiberSignal = .close ∧ CanClose t' := by
  have hrun := fireOnce_evaluated.2
  simp only [map_eq_ok, Prod.exists, Prod.mk.injEq] at hrun
  obtain ⟨w, w', o, hfire, rfl, hbefore, hafter⟩ := hrun
  obtain ⟨-, hexec⟩ := fireOnce_eq_ok hfire
  obtain ⟨t, ht, htrigger⟩ := Option.map_eq_some_iff.mp hbefore
  obtain ⟨t', ht', hsignal⟩ := Option.map_eq_some_iff.mp hafter
  have hcan := (close_honoured_iff hexec ht ht' hsignal).mpr
    ⟨by rw [htrigger]; rfl, fun trigger index => by simp⟩
  exact ⟨w, w', t', hexec, ht', hsignal, hcan.1⟩

end Antegen.ThreadProgram
