import Antegen.MissedMoments

/-!
# The last occurrence

An execution validates the trigger, invokes the fiber, pays, and computes the schedule of
the next firing. Creation and update put the current time in the place of an occurrence
that the cron search does not find; the end of an execution fails then, and with it the
whole execution. So the last occurrence of a schedule is never executed, unless the fiber
starts a chain.
-/
namespace Antegen

namespace Cron

/-- A search that meets no harmful gap finds an occurrence if there is one. -/
theorem exists_found {s : Schedule} (hs : s.fields.WellFormed) {after d : DateTime}
    (hd : after.addSecond = .ok d) (hexact : SearchIsExact s d)
    (hocc : ∃ t, s.Occurs after t) : ∃ r, s.nextAfter after = .ok (some r) := by
  obtain ⟨t, ht⟩ := hocc
  have hfirst : ∃ r, s.nextAfter after = .ok r ∧ Schedule.IsFirst (s.Occurs after) r := by
    by_cases hyear : asU32 d.year ∈ s.fields.years.ordinals
    · exact nextAfter_exact hs hd (Or.inl hyear)
    · have hlater := (occurs_iff_later hs hd hyear t).mp ht
      obtain ⟨y, hy, hty⟩ := ((includes_iff hs t).mp hlater.2.1).year
      have hsame : s.Occurs after = s.OccursLater d :=
        funext fun t' => propext (occurs_iff_later hs hd hyear t')
      rw [hsame]
      exact (gap_iff hs hd hyear ⟨y, hy, hty ▸ hlater.2.2⟩).mpr (hexact.resolve_left hyear)
  obtain ⟨r, hr, hr'⟩ := hfirst
  cases r with
  | none => exact absurd ht (hr' t)
  | some r => exact ⟨r, hr⟩

/-- The search of the thread program, in terms of the seconds of the schedule. -/
theorem nextTimestamp_found {expression : String} {s : Schedule}
    (hs : Schedule.fromStr expression = .ok s) {now : ℤ} :
    (∀ m, nextTimestamp now expression = .ok (some m) → now < m ∧ s.At m) ∧
    (∀ after d, DateTime.fromTimestamp now 0 = some after → after.addSecond = .ok d →
      SearchIsExact s d → (∃ m, now < m ∧ s.At m) →
      ∃ m, nextTimestamp now expression = .ok (some m)) := by
  have hwf := fromStr_wellFormed hs
  constructor
  · intro m h
    simp only [nextTimestamp, bind_eq_ok, pure_eq_ok, ofOption_eq_ok] at h
    obtain ⟨s', hs', after, hafter, r, hr, hm⟩ := h
    rw [hs] at hs'
    obtain rfl := Option.some.inj hs'
    obtain ⟨t, rfl, rfl⟩ := Option.map_eq_some_iff.mp hm
    obtain ⟨rfl, hnanos⟩ := fromTimestamp_eq_some hafter
    obtain ⟨d, hd⟩ := exists_addSecond hr
    obtain ⟨ht, hbefore, hinc⟩ := found_occurs hwf hd hr
    exact ⟨(before_iff_timestamp hnanos ht).mp hbefore, t, ht, rfl, hinc⟩
  · rintro after d hafter hd hexact ⟨m, hm, t, ht, rfl, hinc⟩
    obtain ⟨htime, hnanos⟩ := fromTimestamp_eq_some hafter
    rw [← htime] at hm
    obtain ⟨r, hr⟩ := exists_found hwf hd hexact
      ⟨t, ht, (before_iff_timestamp hnanos ht).mpr hm, hinc⟩
    refine ⟨r.timestamp, ?_⟩
    simp only [nextTimestamp, bind_eq_ok, pure_eq_ok, ofOption_eq_ok]
    exact ⟨s, by rw [hs]; rfl, after, hafter, some r, hr, rfl⟩

end Cron

namespace ThreadProgram

/-- The checks of an execution before its trigger is looked at. -/
structure Admitted (e : Env) (a : ExecArgs) (t : Thread) : Prop where
  address : e.threadAddress t.authority t.id t.bump = some a.thread
  active : t.paused = false
  nonempty : t.fiberIds ≠ []
  admin : a.admin = a.config.admin
  running : a.config.paused = false
  unchained : t.fiberSignal ≠ .chain
  notClosing : t.fiberSignal ≠ .close

/-- The call of a fiber and the payments for it, without the trigger and the schedule. -/
def callAndPay (e : Env) (cpi : Cpi) (a : ExecArgs) (since : ℤ) (t : Thread) (w : Ledger) :
    Result (Ledger × Signal) := do
  t.validateForExecution
  let ready ← advanceNonceIfRequired e a t w
  let ix ← fetchInstruction e a ready
  let (called, returned) ← cpi ix ready
  require ((called a.executor).data.isEmpty) (.thread .unauthorizedWrite)
  let s := t.downgrade a.fiberCursor (parseSignal ix.programId returned)
  let paid ← settle a s since (w a.executor).lamports called
  pure (paid, s)

/-- Schedule and counters are updated and the copy is stored. -/
def storeFiring (e : Env) (a : ExecArgs) (t : Thread) (s : Signal) (paid : Ledger) :
    Result Ledger := do
  let t ← finalize e a paid s (t.conclude s)
  paid.exitThread a.thread t

/-- A cron trigger whose moment was reached is ready. -/
theorem timeSinceReady_of_due {e : Env} {a : ExecArgs} {t : Thread}
    (hsignal : t.fiberSignal ≠ .chain) {expression : String} {skippable : Bool} {jitter : ℕ}
    (htrigger : t.trigger = .cron expression skippable jitter) {prev next : ℤ}
    (hschedule : t.schedule = .timed prev next) (hdue : next ≤ a.clock.unixTimestamp)
    (ready : Ledger) :
    timeSinceReady e a t ready = .ok (saturate (a.clock.unixTimestamp - next)) := by
  rw [timeSinceReady, if_neg hsignal]
  simp only [validateTrigger, triggerReadyTime, htrigger, scheduledReadyTime, hschedule,
    bind_eq_ok, require_eq_ok, pure_eq_ok]
  exact ⟨next, ⟨(), hdue, rfl⟩, rfl⟩

/-- What is left for a trigger that is ready is the call and the storing. -/
theorem execFiber_eq_ok_iff {e : Env} {cpi : Cpi} {a : ExecArgs} {t : Thread} {w w' : Ledger}
    {s : Signal} (hsignal : t.fiberSignal ≠ .chain) {since : ℤ}
    (hready : ∀ ready, timeSinceReady e a t ready = .ok since) :
    execFiber e cpi a t w = .ok (w', s) ↔
      ∃ paid, callAndPay e cpi a since t w = .ok (paid, s) ∧ storeFiring e a t s paid = .ok w' := by
  have hsync : t.sync a.fiberCursor = t := if_neg hsignal
  simp only [execFiber, callAndPay, storeFiring, hsync, hready, bind_eq_ok, require_eq_ok,
    pure_eq_ok, Prod.exists, Prod.mk.injEq, Except.ok.injEq, exists_and_left, exists_const,
    exists_eq_left']
  constructor
  · rintro ⟨u, hvalid, ready, hn, ix, hix, called, returned, hcpi, hempty, paid, hpaid, fin, hfin,
      wx, hexit, rfl, rfl⟩
    exact ⟨paid, ⟨u, hvalid, ready, hn, ix, hix, called, returned, hcpi, hempty, paid, hpaid, rfl,
      rfl⟩, fin, hfin, hexit⟩
  · rintro ⟨paid, ⟨u, hvalid, ready, hn, ix, hix, called, returned, hcpi, hempty, paid', hpaid, rfl,
      rfl⟩, fin, hfin, hexit⟩
    exact ⟨u, hvalid, ready, hn, ix, hix, called, returned, hcpi, hempty, paid', hpaid, fin, hfin,
      w', hexit, rfl, rfl⟩

/-- An admitted execution is one of its fiber. -/
theorem threadExec_succeeds_iff {e : Env} {cpi : Cpi} {a : ExecArgs} {t : Thread} {w : Ledger}
    (ht : w.threadAt a.thread = some t) (hadmitted : Admitted e a t) :
    (∃ r, threadExec e cpi a w = .ok r) ↔ ∃ w' s, execFiber e cpi a t w = .ok (w', s) := by
  have hload : w.loadThread a.thread = .ok t := Ledger.loadThread_eq_ok.mpr ht
  simp only [threadExec, hload, bind_eq_ok, require_eq_ok, exists_and_left, exists_const,
    Except.ok.injEq, exists_eq_left', hadmitted.address, hadmitted.active, hadmitted.admin,
    hadmitted.running, hadmitted.notClosing, hadmitted.nonempty, ne_eq, not_false_eq_true, true_and,
    if_false, map_eq_ok, Prod.exists, Prod.mk.injEq]
  constructor
  · rintro ⟨w', o, u, s, hexec, -⟩
    exact ⟨u, s, hexec⟩
  · rintro ⟨w', s, hexec⟩
    exact ⟨w', .fiber s, w', s, hexec, rfl, rfl⟩

theorem reschedule_succeeds_iff {e : Env} {a : ExecArgs} {t : Thread} {s : Signal} (paid : Ledger)
    {expression : String} {skippable : Bool} {jitter : ℕ}
    (htrigger : t.trigger = .cron expression skippable jitter) :
    (∃ t', reschedule e a paid s t = .ok t') ↔
      s = .chain ∨ ∃ m, e.nextTimestamp a.clock.unixTimestamp expression = .ok (some m) := by
  unfold reschedule
  split_ifs with hs
  · simp [hs]
  · simp only [updateSchedule, nextSchedule, htrigger, hs, false_or, map_eq_ok, bind_eq_ok,
      pure_eq_ok, ofOption_eq_ok]
    constructor
    · rintro ⟨t', schedule, ⟨found, hfound, m, rfl, -⟩, -⟩
      exact ⟨m, hfound⟩
    · rintro ⟨m, hfound⟩
      exact ⟨_, _, ⟨some m, hfound, m, rfl, rfl⟩, rfl⟩

theorem reschedule_execCount {e : Env} {a : ExecArgs} {t t' : Thread} {s : Signal} {paid : Ledger}
    (h : reschedule e a paid s t = .ok t') : t'.execCount = t.execCount := by
  unfold reschedule at h
  split at h
  · rw [Except.ok.inj h]
  · obtain ⟨schedule, -, rfl⟩ := map_eq_ok.mp h
    rfl

/-- The copy is stored if the search finds a moment and the counter does not overflow. -/
theorem storeFiring_succeeds_iff {e : Env} {a : ExecArgs} {t : Thread} {s : Signal} {paid : Ledger}
    {expression : String} {skippable : Bool} {jitter : ℕ}
    (htrigger : t.trigger = .cron expression skippable jitter) (hnew : s.newTrigger = none)
    (hown : paid.isClosed a.thread = true ∨ (paid a.thread).owner = threadProgram) :
    (∃ w', storeFiring e a t s paid = .ok w') ↔
      (s = .chain ∨ ∃ m, e.nextTimestamp a.clock.unixTimestamp expression = .ok (some m)) ∧
        t.execCount + 1 < 2 ^ 64 := by
  have htrigger' : (t.conclude s).trigger = .cron expression skippable jitter := by
    rw [Thread.conclude_trigger, hnew]
    exact htrigger
  have hcount : (t.conclude s).execCount = t.execCount := by
    rw [Thread.conclude_eq]
  rw [← reschedule_succeeds_iff paid htrigger']
  simp only [storeFiring, finalize, bind_eq_ok, checkU64_eq_ok, pure_eq_ok]
  constructor
  · rintro ⟨w', t'', ⟨t', ht', n, ⟨hn, -⟩, -⟩, -⟩
    rw [reschedule_execCount ht', hcount] at hn
    exact ⟨⟨t', ht'⟩, hn⟩
  · rintro ⟨⟨t', ht'⟩, hn⟩
    rw [← hcount, ← reschedule_execCount ht'] at hn
    obtain ⟨w', hw'⟩ := Ledger.exitThread_succeeds hown
      { t' with execCount := t'.execCount + 1, lastExecutor := a.executor }
    exact ⟨w', _, ⟨t', ht', _, ⟨hn, rfl⟩, rfl⟩, hw'⟩

/-- A due cron trigger on an unchained thread: correct accounts, a callee that succeeds and
does not replace the trigger, and enough funds for the payments. -/
structure DueFiring (e : Env) (cpi : Cpi) (a : ExecArgs) (w : Ledger) (expression : String)
    (t : Thread) (s : Signal) : Prop where
  stored : w.threadAt a.thread = some t
  admitted : Admitted e a t
  trigger : ∃ skippable jitter, t.trigger = .cron expression skippable jitter
  served : ∃ prev next paid, t.schedule = .timed prev next ∧ next ≤ a.clock.unixTimestamp ∧
    callAndPay e cpi a (saturate (a.clock.unixTimestamp - next)) t w = .ok (paid, s) ∧
    (paid.isClosed a.thread = true ∨ (paid a.thread).owner = threadProgram)
  kept : s.newTrigger = none

theorem DueFiring.succeeds_iff {e : Env} {cpi : Cpi} {a : ExecArgs} {w : Ledger}
    {expression : String} {t : Thread} {s : Signal} (h : DueFiring e cpi a w expression t s) :
    (∃ r, threadExec e cpi a w = .ok r) ↔
      (s = .chain ∨ ∃ m, e.nextTimestamp a.clock.unixTimestamp expression = .ok (some m)) ∧
        t.execCount + 1 < 2 ^ 64 := by
  obtain ⟨skippable, jitter, htrigger⟩ := h.trigger
  obtain ⟨prev, next, paid, hschedule, hdue, hpaid, hown⟩ := h.served
  have hready := timeSinceReady_of_due (e := e) h.admitted.unchained htrigger hschedule hdue
  rw [← storeFiring_succeeds_iff htrigger h.kept hown, threadExec_succeeds_iff h.stored h.admitted]
  simp only [execFiber_eq_ok_iff h.admitted.unchained hready, hpaid, Except.ok.injEq,
    Prod.mk.injEq]
  constructor
  · rintro ⟨w', s', paid', ⟨rfl, rfl⟩, hstore⟩
    exact ⟨w', hstore⟩
  · rintro ⟨w', hstore⟩
    exact ⟨w', s, paid, ⟨rfl, rfl⟩, hstore⟩

/-- A due firing succeeds exactly if it starts a chain or the search finds another moment,
and the counter does not overflow. What the search finds is a later occurrence, and it
finds one if there is one, unless it meets a harmful gap in the years. -/
theorem last_occurrence_executed_iff {e : Env} {cpi : Cpi} {a : ExecArgs} {w : Ledger}
    {expression : String} {sched : Cron.Schedule}
    (hs : Cron.Schedule.fromStr expression = .ok sched) {t : Thread} {s : Signal}
    (h : DueFiring e.linked cpi a w expression t s) :
    ((∃ r, threadExec e.linked cpi a w = .ok r) ↔
      (s = .chain ∨ ∃ m, Cron.nextTimestamp a.clock.unixTimestamp expression = .ok (some m)) ∧
        t.execCount + 1 < 2 ^ 64) ∧
    (∀ m, Cron.nextTimestamp a.clock.unixTimestamp expression = .ok (some m) →
      a.clock.unixTimestamp < m ∧ sched.At m) ∧
    (∀ after d, Cron.DateTime.fromTimestamp a.clock.unixTimestamp 0 = some after →
      after.addSecond = .ok d → Cron.SearchIsExact sched d →
      (∃ m, a.clock.unixTimestamp < m ∧ sched.At m) →
      ∃ m, Cron.nextTimestamp a.clock.unixTimestamp expression = .ok (some m)) :=
  ⟨h.succeeds_iff, Cron.nextTimestamp_found hs⟩

/-- Thread 1 is created at timestamp 50 and its fiber is called for the moment 60. -/
def callAtSixty (expression : String) : Result (Ledger × Thread × Ledger × Signal) := do
  let w ← threadCreate sampleEnv.linked (sampleCreate (.cron expression false 0)) payerLedger
  let t ← w.loadThread 1
  let (paid, s) ← callAndPay sampleEnv.linked (memoCpi .none) (argsAt 60) 0 t w
  pure (w, t, paid, s)

theorem callAtSixty_due {expression : String}
    (h : (callAtSixty expression).map (fun (_, t, paid, s) => decide (
      sampleEnv.threadAddress t.authority t.id t.bump = some 1 ∧ t.paused = false ∧
      t.fiberIds ≠ [] ∧ t.fiberSignal = .none ∧ t.trigger = .cron expression false 0 ∧
      t.schedule = .timed 50 60 ∧ t.execCount = 0 ∧ (paid 1).owner = threadProgram ∧
      s = .none)) = .ok true) :
    ∃ w t, Reachable sampleEnv.linked 1 w ∧ t.execCount = 0 ∧ t.schedule = .timed 50 60 ∧
      DueFiring sampleEnv.linked (memoCpi .none) (argsAt 60) w expression t .none := by
  obtain ⟨⟨w, t, paid, s⟩, hcall, hfields⟩ := map_eq_ok.mp h
  obtain ⟨haddress, hpaused, hids, hsignal, htrigger, hschedule, hcount, howner, rfl⟩ :=
    of_decide_eq_true hfields
  simp only [callAtSixty, bind_eq_ok, pure_eq_ok, Prod.exists, Prod.mk.injEq] at hcall
  obtain ⟨u, hcreate, t', hload, paid', s', hpay, rfl, rfl, rfl, rfl⟩ := hcall
  refine ⟨u, t', threadCreate_reachable rfl hcreate, hcount, hschedule,
    Ledger.loadThread_eq_ok.mp hload, ⟨haddress, hpaused, hids, rfl, rfl, ?_, ?_⟩,
    ⟨false, 0, htrigger⟩, ⟨50, 60, paid', hschedule, le_rfl, hpay, Or.inr howner⟩, rfl⟩
  · rw [hsignal]
    simp
  · rw [hsignal]
    simp

def firstMinuteOf1970 : String := "0 1 0 1 1 * 1970"

set_option maxRecDepth 20000 in
theorem occurrences_evaluated :
    (∃ w t, Reachable sampleEnv.linked 1 w ∧ t.execCount = 0 ∧ t.schedule = .timed 50 60 ∧
      DueFiring sampleEnv.linked (memoCpi .none) (argsAt 60) w firstMinuteOf1970 t .none) ∧
    (∃ w t, Reachable sampleEnv.linked 1 w ∧ t.execCount = 0 ∧ t.schedule = .timed 50 60 ∧
      DueFiring sampleEnv.linked (memoCpi .none) (argsAt 60) w everyTenSeconds t .none) ∧
    Cron.nextTimestamp 60 firstMinuteOf1970 = .ok none ∧
    Cron.nextTimestamp 60 everyTenSeconds = .ok (some 70) :=
  ⟨callAtSixty_due (by decide +kernel), callAtSixty_due (by decide +kernel), by decide +kernel,
    by decide +kernel⟩

/-- A thread for the first minute of 1970 waits for its only moment, and cannot execute it
when it is there. -/
theorem last_occurrence_is_not_executed :
    ∃ w t, Reachable sampleEnv.linked 1 w ∧ t.schedule = .timed 50 60 ∧
      DueFiring sampleEnv.linked (memoCpi .none) (argsAt 60) w firstMinuteOf1970 t .none ∧
      ¬ ∃ r, threadExec sampleEnv.linked (memoCpi .none) (argsAt 60) w = .ok r := by
  obtain ⟨⟨w, t, hr, -, hschedule, hdue⟩, -, hsearch, -⟩ := occurrences_evaluated
  refine ⟨w, t, hr, hschedule, hdue, ?_⟩
  intro hexec
  rcases (hdue.succeeds_iff.mp hexec).1 with hchain | ⟨m, hm⟩
  · exact absurd hchain (by simp)
  · exact absurd (hsearch.symm.trans hm) (by simp)

theorem later_occurrence_is_executed :
    ∃ w t r, t.schedule = .timed 50 60 ∧
      DueFiring sampleEnv.linked (memoCpi .none) (argsAt 60) w everyTenSeconds t .none ∧
      threadExec sampleEnv.linked (memoCpi .none) (argsAt 60) w = .ok r := by
  obtain ⟨-, ⟨w, t, -, hcount, hschedule, hdue⟩, -, hsearch⟩ := occurrences_evaluated
  obtain ⟨s, hs, -⟩ := firings_evaluated.2.2.2
  obtain ⟨r, hr⟩ := (last_occurrence_executed_iff hs hdue).1.mpr
    ⟨Or.inr ⟨70, hsearch⟩, by rw [hcount]; decide⟩
  exact ⟨w, t, r, hschedule, hdue, hr⟩

end ThreadProgram

end Antegen
