import Antegen.Scheduling

/-!
# Account triggers

An unchained execution compares the watched slice with the hash that the schedule
holds, and the end of a firing stores a new hash. Only the first of the two checks
which account it was given. If every execution that ends a firing gets the watched
account, an unchained execution finds the slice changed since the last firing.
-/
namespace Antegen.ThreadProgram

open Transition

/-- The watched slice of an account as it stands in a ledger. -/
def watchedIn (e : Env) (w : Ledger) (address : Pubkey) (offset size : ℕ) :
    Result (List UInt8) :=
  watchedSlice (e.dataBytes (w address).data) offset size

/-- An execution that ends a firing. -/
def Completes : Event → Prop
  | .exec _ _ _ (.fiber s) => s ≠ .chain
  | _ => False

/-- An instruction that sets a trigger, with a schedule of its own. -/
def SetsTrigger : Event → Prop
  | .instruction (.threadCreate _) => True
  | .instruction (.threadUpdate a) => a.trigger.isSome = true
  | _ => False

/-- An execution that leaves an account trigger at the end of a firing is given the
watched account first, and this is not the thread. An unchained execution of such a
trigger does not advance the nonce in the watched account. -/
def PassesWatched : Event → Prop
  | .exec _ a before (.fiber s) =>
    (s ≠ .chain → ∀ address offset size,
      s.newTrigger.getD before.trigger = .account address offset size →
        a.remainingAccounts.head? = some address ∧ address ≠ a.thread) ∧
    (before.fiberSignal ≠ .chain → ∀ address offset size,
      before.trigger = .account address offset size → before.hasNonceAccount = true →
        a.nonceAccount ≠ some address)
  | _ => True

namespace Execution

variable {e : Env} {cpi : Cpi} {a : ExecArgs} {w w' : Ledger} {s : Signal}
  (x : Execution e cpi a w w' s)

include x

/-- The nonce update touches no account but the nonce. -/
theorem ready_of_ne {k : Pubkey}
    (hk : x.thread.hasNonceAccount = true → a.nonceAccount ≠ some k) : x.ready k = w k := by
  have hsync : (x.thread.sync a.fiberCursor).hasNonceAccount = x.thread.hasNonceAccount := by
    unfold Thread.sync
    split <;> rfl
  have h := x.advanced
  unfold advanceNonceIfRequired at h
  rw [hsync] at h
  split at h
  · rename_i hnonce
    split at h
    · rename_i nonce recent hn hr
      simp only [advanceNonceAccount, bind_eq_ok] at h
      obtain ⟨out, -, h⟩ := h
      obtain ⟨hset, -⟩ := Ledger.writeData_eq_ok h
      rw [hset]
      refine Ledger.setData_of_ne w (fun he => hk hnonce ?_) _
      rw [hn, he]
    · simp at h
  · exact congrFun (Except.ok.inj h).symm k

/-- The data of another account at exit is the data that the schedule was made from. -/
theorem data_of_ne {k : Pubkey} (hk : k ≠ a.thread) : (x.paid k).data = (w' k).data := by
  rw [Ledger.exitThread_of_ne x.exited hk]

/-- What the end of a firing records for an account trigger. -/
theorem finished_records {address : Pubkey} {offset size : ℕ} (hs : s ≠ .chain)
    (htrigger : x.finished.trigger = .account address offset size)
    (hhead : a.remainingAccounts.head? = some address) (hne : address ≠ a.thread) :
    ∃ slice, watchedIn e w' address offset size = .ok slice ∧
      x.finished.schedule = .onChange (e.dataHash slice) := by
  rcases x.finished_schedule with ⟨hchain, -⟩ | ⟨-, hschedule⟩
  · exact absurd hchain hs
  · rw [htrigger] at hschedule
    simp only [nextSchedule, accountInfos, List.head?_map, hhead, Option.map_some, bind_eq_ok,
      pure_eq_ok, ofOption_eq_ok, Option.some.injEq, exists_eq_left'] at hschedule
    obtain ⟨slice, hslice, hrecorded⟩ := hschedule
    rw [x.data_of_ne hne] at hslice
    exact ⟨slice, hslice, hrecorded.symm⟩

/-- What an unchained execution of an account trigger has found. -/
theorem changed_of_unchained {address : Pubkey} {offset size prev : ℕ}
    (hunchained : x.thread.fiberSignal ≠ .chain)
    (htrigger : x.thread.trigger = .account address offset size)
    (hschedule : x.thread.schedule = .onChange prev)
    (hnonce : x.thread.hasNonceAccount = true → a.nonceAccount ≠ some address) :
    ∃ slice, watchedIn e w address offset size = .ok slice ∧ e.dataHash slice ≠ prev := by
  have hsync : x.thread.sync a.fiberCursor = x.thread := if_neg hunchained
  have h := x.triggered
  rw [hsync, timeSinceReady, if_neg hunchained] at h
  simp only [validateTrigger, triggerReadyTime, htrigger, changedReadyTime, hschedule, accountInfos,
    List.head?_map, bind_eq_ok, pure_eq_ok, ofOption_eq_ok, require_eq_ok, exists_and_left,
    exists_const] at h
  obtain ⟨_, ⟨info, hinfo, haddress, slice, hslice, hne, _⟩, _⟩ := h
  obtain ⟨k, -, rfl⟩ := Option.map_eq_some_iff.mp hinfo
  simp only at haddress hslice
  subst haddress
  rw [x.ready_of_ne hnonce] at hslice
  exact ⟨slice, hslice, hne⟩

end Execution

/-- Between two firings the trigger and the schedule stay as they are. -/
theorem trigger_kept {e : Env} {thread : Pubkey} {w w' : Ledger} {events : List Event}
    (h : Run (Step e thread) w events w')
    (hquiet : ∀ ev ∈ events, ¬ Completes ev ∧ ¬ SetsTrigger ev) {t' : Thread}
    (ht' : w'.threadAt thread = some t') :
    ∃ t, w.threadAt thread = some t ∧ t'.trigger = t.trigger ∧ t'.schedule = t.schedule := by
  induction h with
  | nil u => exact ⟨t', ht', rfl, rfl⟩
  | @cons u v z ev events hstep hrun ih =>
    obtain ⟨t, ht, htrigger, hschedule⟩ := ih (fun ev' hev' => hquiet ev' (by simp [hev'])) ht'
    obtain ⟨hopen, hkeep⟩ := hquiet ev (by simp)
    rw [htrigger, hschedule]
    rcases step_cases hstep ht with ⟨ix, rfl, -⟩ | ⟨cpi, a, s, x, rfl, hx, -, rfl⟩ |
      ⟨cpi, a, -, hsame, -⟩ | ⟨-, hsame⟩
    · obtain ⟨hix, hp⟩ := hstep
      rw [← hix] at ht ⊢
      rcases process_cases hp ht with ⟨a, _, _, _, _, rfl, -⟩ | ⟨a, t₀, rfl, ht₀, hu⟩ |
        ⟨t₀, ht₀, hframe⟩
      · exact absurd trivial hkeep
      · have hnone : a.trigger = none := by simpa [SetsTrigger] using hkeep
        simp only [updatedThread, hnone] at hu
        rw [← Except.ok.inj hu]
        exact ⟨t₀, ht₀, rfl, rfl⟩
      · rw [hframe]
        exact ⟨t₀, ht₀, rfl, rfl⟩
    · have hs : s = .chain := by simpa [Completes] using hopen
      rcases x.finished_schedule with ⟨-, hkept⟩ | ⟨hne, -⟩
      · refine ⟨x.thread, hx, ?_, hkept⟩
        rw [x.finished_trigger, show s.newTrigger = none by rw [hs]; rfl]
        rfl
      · exact absurd hs hne
    · exact ⟨t, hsame, rfl, rfl⟩
    · exact ⟨t, hsame, rfl, rfl⟩

/-- On every run whose executions get the watched account, an unchained execution of an
account trigger has found another slice than the last firing left. -/
theorem fires_on_change {e : Env} {thread : Pubkey} {w₀ w₁ w₂ w₃ : Ledger} {last : Event}
    {between : List Event} (hlast : Guarded (Step e thread) (fun _ => PassesWatched) w₀ last w₁)
    (hcompletes : Completes last)
    (hbetween : Run (Guarded (Step e thread) fun _ => PassesWatched) w₁ between w₂)
    (hquiet : ∀ ev ∈ between, ¬ Completes ev ∧ ¬ SetsTrigger ev)
    {cpi : Cpi} {a : ExecArgs} {t : Thread} {s : Signal}
    (hexec : Guarded (Step e thread) (fun _ => PassesWatched) w₂ (.exec cpi a t (.fiber s)) w₃)
    (hunchained : t.fiberSignal ≠ .chain) {address : Pubkey} {offset size : ℕ}
    (htrigger : t.trigger = .account address offset size) :
    ∃ old new, watchedIn e w₁ address offset size = .ok old ∧
      watchedIn e w₂ address offset size = .ok new ∧ new ≠ old := by
  obtain ⟨⟨-, hnonce⟩, hthread, ht, hexec⟩ := hexec
  obtain ⟨t₁, ht₁, htrigger₁, hschedule₁⟩ :=
    trigger_kept (hbetween.mono fun _ _ _ hstep => hstep.2) hquiet ht
  rw [htrigger] at htrigger₁
  obtain ⟨hpasses, hstep⟩ := hlast
  cases last with
  | instruction ix => exact absurd hcompletes id
  | other => exact absurd hcompletes id
  | exec cpi₁ a₁ before outcome =>
    cases outcome with
    | closePath => exact absurd hcompletes id
    | fiber s₁ =>
      obtain ⟨rfl, hbefore, hexec₁⟩ := hstep
      obtain ⟨x₁⟩ := threadExec_fiber hexec₁
      obtain rfl : before = x₁.thread := Option.some.inj (hbefore.symm.trans x₁.stored)
      obtain rfl := x₁.eq_finished ht₁
      have hnew := htrigger₁.symm
      rw [x₁.finished_trigger] at hnew
      obtain ⟨hhead, hne⟩ := hpasses.1 hcompletes address offset size hnew
      obtain ⟨old, hold, hrecorded⟩ :=
        x₁.finished_records hcompletes htrigger₁.symm hhead hne
      obtain ⟨x⟩ := threadExec_fiber hexec
      rw [← hthread] at ht
      obtain rfl : x.thread = t := Option.some.inj (x.stored.symm.trans ht)
      obtain ⟨new, hnewSlice, hhash⟩ := x.changed_of_unchained hunchained htrigger
        (hschedule₁.trans hrecorded) (hnonce hunchained address offset size htrigger)
      refine ⟨old, new, hold, hnewSlice, fun heq => hhash ?_⟩
      rw [heq]

/-! ## A watched account -/

/-- A number for every byte string, by bijective base 256. -/
def byteNumber : List UInt8 → ℕ
  | [] => 0
  | b :: bs => 256 * byteNumber bs + b.toNat + 1

theorem byteNumber_injective : Function.Injective byteNumber := by
  intro xs
  induction xs with
  | nil =>
    intro ys h
    cases ys with
    | nil => rfl
    | cons b bs => simp [byteNumber] at h
  | cons a as ih =>
    intro ys h
    cases ys with
    | nil => simp [byteNumber] at h
    | cons b bs =>
      have ha := a.toNat_lt
      have hb := b.toNat_lt
      simp only [byteNumber] at h
      have htail : byteNumber as = byteNumber bs := by omega
      have hhead : a.toNat = b.toNat := by omega
      rw [ih htail, UInt8.toNat_inj.mp hhead]

/-- The small world with a hash that tells all slices apart. -/
def watchEnv : Env := { sampleEnv with dataHash := byteNumber }

/-- Account 3 holds four bytes, and thread 1 watches them. -/
def watchedLedger : Ledger := payerLedger.setData 3 (.bytes [1, 2, 3, 4])

def watchArgs (fiberCursor : UInt8) (first : Pubkey) : ExecArgs :=
  { sampleArgs fiberCursor with remainingAccounts := [first] }

/-- Thread 1 with two fibers fires for the first time on account 3. -/
def watchOnce (signal : Signal) : Result (Ledger × Ledger × Outcome) := do
  let w ← threadCreate watchEnv (sampleCreate (.account 3 0 4)) watchedLedger
  let w ← fiberCreate watchEnv sampleFiberCreate w
  let (w₁, o) ← threadExec watchEnv (memoCpi signal) (watchArgs 0 3) w
  pure (w, w₁, o)

theorem watchOnce_eq_ok {signal : Signal} {w w₁ : Ledger} {o : Outcome}
    (h : watchOnce signal = .ok (w, w₁, o)) : Reachable watchEnv 1 w ∧
      threadExec watchEnv (memoCpi signal) (watchArgs 0 3) w = .ok (w₁, o) := by
  simp only [watchOnce, bind_eq_ok, pure_eq_ok, Prod.exists, Prod.mk.injEq] at h
  obtain ⟨u, hcreate, u', hfiber, u₁, o₁, hexec, rfl, rfl, rfl⟩ := h
  have h₁ : Step watchEnv 1 watchedLedger
      (.instruction (.threadCreate (sampleCreate (.account 3 0 4)))) u := ⟨rfl, hcreate⟩
  have h₂ : Step watchEnv 1 u (.instruction (.fiberCreate sampleFiberCreate)) u' := ⟨rfl, hfiber⟩
  exact ⟨⟨watchedLedger, _, rfl, .cons h₁ (.cons h₂ (.nil u'))⟩, hexec⟩

/-- The first execution chains, the second ends the firing with account 4 in the place
of the watched one, and the third is unchained. -/
def watchChained : Result ((Ledger × Ledger × Ledger × Ledger) × Outcome × Outcome × Outcome) := do
  let (w, w₁, o₁) ← watchOnce .chain
  let (w₂, o₂) ← threadExec watchEnv (memoCpi .none) (watchArgs 1 4) w₁
  let (w₃, o₃) ← threadExec watchEnv (memoCpi .none) (watchArgs 0 3) w₂
  pure ((w, w₁, w₂, w₃), o₁, o₂, o₃)

/-- A firing, a change of the watched bytes, and another firing. -/
def watchChanged : Result (Ledger × Ledger × Ledger × Outcome × Outcome) := do
  let (w, w₁, o₁) ← watchOnce .none
  let (w₂, o₂) ← threadExec watchEnv (memoCpi .none) (watchArgs 1 3)
    (w₁.setData 3 (.bytes [1, 2, 3, 5]))
  pure (w, w₁, w₂, o₁, o₂)

set_option maxRecDepth 20000 in
/-- Both sequences of firings complete, on a thread that still watches account 3. -/
theorem watch_evaluated :
    watchChained.map (fun r => (r.2, watchedIn watchEnv r.1.2.2.1 3 0 4,
      (r.1.2.2.1.threadAt 1).map fun t => (t.fiberSignal, t.trigger))) =
        .ok ((.fiber .chain, .fiber .none, .fiber .none), .ok [1, 2, 3, 4],
          some (.none, .account 3 0 4)) ∧
    watchChanged.map (fun r => (r.2.2.2,
      (r.1.threadAt 1).map fun t => (t.trigger, t.hasNonceAccount),
      (r.2.1.threadAt 1).map fun t => (t.fiberSignal, t.trigger, t.hasNonceAccount))) =
        .ok ((.fiber .none, .fiber .none), some (.account 3 0 4, false),
          some (.none, .account 3 0 4, false)) := by
  constructor
  · decide +kernel
  · decide +kernel

/-- The firing that ended with another account is followed by one without a change. -/
theorem unchanged_account_fires : Function.Injective watchEnv.dataHash ∧
    ∃ w w₁ w₂ w₃ t t₁ t₂, Reachable watchEnv 1 w ∧
      Step watchEnv 1 w (.exec (memoCpi .chain) (watchArgs 0 3) t (.fiber .chain)) w₁ ∧
      Step watchEnv 1 w₁ (.exec (memoCpi .none) (watchArgs 1 4) t₁ (.fiber .none)) w₂ ∧
      Step watchEnv 1 w₂ (.exec (memoCpi .none) (watchArgs 0 3) t₂ (.fiber .none)) w₃ ∧
      t₂.fiberSignal ≠ .chain ∧ t₂.trigger = .account 3 0 4 ∧
      watchedIn watchEnv w₂ 3 0 4 = .ok [1, 2, 3, 4] := by
  refine ⟨byteNumber_injective, ?_⟩
  have hrun := watch_evaluated.1
  simp only [watchChained, map_eq_ok, bind_eq_ok, pure_eq_ok, Prod.exists, Prod.mk.injEq] at hrun
  obtain ⟨_, _, _, _, _, _, _, ⟨w, w₁, _, hfirst, w₂, _, h₂, w₃, _, h₃, ⟨rfl, rfl, rfl, rfl⟩,
    rfl, rfl, rfl⟩, ⟨rfl, rfl, rfl⟩, hslice, hstored⟩ := hrun
  obtain ⟨hr, h₁⟩ := watchOnce_eq_ok hfirst
  obtain ⟨t, -, hstep₁⟩ := exec_step h₁
  obtain ⟨t₁, -, hstep₂⟩ := exec_step h₂
  obtain ⟨t₂, ht₂, hstep₃⟩ := exec_step h₃
  have hfields : (t₂.fiberSignal, t₂.trigger) = (Signal.none, Trigger.account 3 0 4) := by
    rw [show w₂.threadAt 1 = some t₂ from ht₂] at hstored
    exact Option.some.inj hstored
  obtain ⟨hsignal, htrigger⟩ := Prod.mk.inj hfields
  refine ⟨w, w₁, w₂, w₃, t, t₁, t₂, hr, hstep₁, hstep₂, hstep₃, ?_, htrigger, hslice⟩
  rw [hsignal]
  decide

theorem passes_watchArgs {cpi : Cpi} {c : UInt8} {t : Thread} (htrigger : t.trigger = .account 3 0 4)
    (hnonce : t.hasNonceAccount = false) :
    PassesWatched (.exec cpi (watchArgs c 3) t (.fiber .none)) := by
  refine ⟨fun _ address offset size heq => ?_, fun _ address offset size _ hn => ?_⟩
  · rw [show Signal.newTrigger .none = none from rfl, Option.getD_none, htrigger] at heq
    obtain ⟨rfl, -, -⟩ := Trigger.account.inj heq
    exact ⟨rfl, show (3 : Pubkey) ≠ 1 by decide⟩
  · rw [hnonce] at hn
    exact absurd hn (by simp)

theorem changed_account_fires :
    ∃ w w₁ w₂ w₃ t t₁ old new, Reachable watchEnv 1 w ∧
      Step watchEnv 1 w (.exec (memoCpi .none) (watchArgs 0 3) t (.fiber .none)) w₁ ∧
      Step watchEnv 1 w₂ (.exec (memoCpi .none) (watchArgs 1 3) t₁ (.fiber .none)) w₃ ∧
      watchedIn watchEnv w₁ 3 0 4 = .ok old ∧ watchedIn watchEnv w₂ 3 0 4 = .ok new ∧
      new ≠ old := by
  have hrun := watch_evaluated.2
  simp only [watchChanged, map_eq_ok, bind_eq_ok, pure_eq_ok, Prod.exists, Prod.mk.injEq] at hrun
  obtain ⟨_, _, _, _, _, ⟨w, w₁, _, hfirst, w₃, _, h₂, rfl, rfl, rfl, rfl, rfl⟩, ⟨rfl, rfl⟩,
    hbefore, hstored⟩ := hrun
  obtain ⟨hr, h₁⟩ := watchOnce_eq_ok hfirst
  obtain ⟨t, ht, hstep₁⟩ := exec_step h₁
  obtain ⟨t₁, ht₁, hstep₂⟩ := exec_step h₂
  have hkeep : (w₁.setData 3 (.bytes [1, 2, 3, 5])).threadAt 1 = w₁.threadAt 1 := by
    unfold Ledger.threadAt
    rw [Ledger.setData_of_ne w₁ (by decide)]
  rw [show w.threadAt 1 = some t from ht] at hbefore
  obtain ⟨htrigger, hnonce⟩ := Prod.mk.inj (Option.some.inj hbefore)
  rw [← hkeep, show (w₁.setData 3 (.bytes [1, 2, 3, 5])).threadAt 1 = some t₁ from ht₁] at hstored
  obtain ⟨hsignal₁, hrest⟩ := Prod.mk.inj (Option.some.inj hstored)
  obtain ⟨htrigger₁, hnonce₁⟩ := Prod.mk.inj hrest
  have hother : Run (Guarded (Step watchEnv 1) fun _ => PassesWatched) w₁ [.other]
      (w₁.setData 3 (.bytes [1, 2, 3, 5])) := .cons ⟨trivial, Or.inl hkeep⟩ (.nil _)
  obtain ⟨old, new, hchanged⟩ :=
    fires_on_change ⟨passes_watchArgs htrigger hnonce, hstep₁⟩ (by simp [Completes]) hother
      (by simp [Completes, SetsTrigger]) ⟨passes_watchArgs htrigger₁ hnonce₁, hstep₂⟩
      (by rw [hsignal₁]; decide) htrigger₁
  exact ⟨w, w₁, _, w₃, t, t₁, old, new, hr, hstep₁, hstep₂, hchanged⟩

end Antegen.ThreadProgram
