import Antegen.CursorRuns

/-!
# The fiber that runs

A thread designates one fiber for its next execution: the one under the cursor, or
inside a chain the successor of the one that chained. If every executor passes the
designated index, consecutive firings follow the signals: `Next` and `Update` jump,
`Repeat` stays, and `None` and `Chain` move on, upwards within a chain.
-/
namespace Antegen.ThreadProgram

open Transition

/-- The index that the stored state designates for the next execution. -/
def designated (t : Thread) : UInt8 :=
  if t.fiberSignal = .chain then t.nextFiberIndex else t.fiberCursor

/-- The executor passes the designated index. -/
def Obedient : Event → Prop
  | .exec _ a before (.fiber _) => a.fiberCursor = designated before
  | _ => True

/-- No fiber is created, closed or swapped, and the thread is not created again. -/
def Undisturbed : Event → Prop
  | .instruction (.threadUpdate _) => True
  | .instruction (.fiberUpdate _) => True
  | .instruction _ => False
  | _ => True

/-- One execution of a fiber. -/
structure Firing where
  before : Thread
  index : UInt8
  signal : Signal

def Event.firing? : Event → Option Firing
  | .exec _ a before (.fiber s) => some ⟨before, a.fiberCursor, s⟩
  | _ => none

def firings (events : List Event) : List Firing := events.filterMap Event.firing?

/-- The index that the signal of a firing designates when its chain has ended. -/
def Firing.successor (f : Firing) : UInt8 :=
  match f.signal with
  | .next index => index
  | .update _ _ (some index) => index
  | .update _ _ none => cyclicNext f.before.fiberIds f.index
  | .none => cyclicNext f.before.fiberIds f.index
  | _ => f.index

/-- One firing is the next one after another. -/
def Follows (f g : Firing) : Prop :=
  if f.signal = .chain then
    g.before.fiberSignal = .chain ∧ g.index = cyclicNext g.before.fiberIds f.index ∧
      f.index < g.index
  else
    g.before.fiberSignal ≠ .chain ∧ f.signal ≠ .close ∧ g.index = f.successor

/-- What a stored thread owes to the last firing. -/
def Owes (f : Firing) (t : Thread) : Prop :=
  if f.signal = .chain then
    t.fiberSignal = .chain ∧ t.fiberCursor = f.index ∧ f.index ∈ t.fiberIds ∧
      ∃ j ∈ t.fiberIds, f.index < j
  else
    t.fiberSignal = .close ∨
      (t.fiberSignal = .none ∧ f.signal ≠ .close ∧ t.fiberCursor = f.successor)

/-- A debt rests on signal and cursor, and survives the tracking of more indices. -/
theorem Owes.mono {f : Firing} {t t' : Thread} (h : Owes f t)
    (hsignal : t'.fiberSignal = t.fiberSignal) (hcursor : t'.fiberCursor = t.fiberCursor)
    (hids : t.fiberIds ⊆ t'.fiberIds) : Owes f t' := by
  unfold Owes at h ⊢
  rw [hsignal, hcursor]
  split
  · rename_i hchain
    rw [if_pos hchain] at h
    obtain ⟨h1, h2, hmem, j, hj, hlt⟩ := h
    exact ⟨h1, h2, hids hmem, j, hids hj, hlt⟩
  · rename_i hchain
    rw [if_neg hchain] at h
    exact h

theorem owes_effect {e : Env} {f : Firing} {before : Option Thread} {after : Thread} {ix : Ix}
    (h : Effect e before after ix) (hquiet : Undisturbed (.instruction ix))
    (howes : ∀ t, before = some t → Owes f t) : Owes f after := by
  cases ix with
  | threadUpdate a =>
    obtain ⟨t, ht, hu⟩ := h
    have heq := updatedThread_eq hu
    exact (howes t ht).mono (by rw [heq]) (by rw [heq]) (by rw [heq]; exact fun _ hj => hj)
  | fiberUpdate a =>
    obtain ⟨t, ht, rfl⟩ := h
    by_cases htrack : a.track = true
    · rw [if_pos htrack]
      refine (howes t ht).mono ?_ (t.trackUpdated_fiberCursor _) fun j hj => ?_
      · unfold Thread.trackUpdated
        split <;> rfl
      · rw [Thread.trackUpdated_fiberIds]
        exact Thread.mem_tracked.mpr (Or.inr hj)
    · rw [if_neg htrack]
      exact howes t ht
  | threadCreate a => exact absurd hquiet id
  | fiberCreate a => exact absurd hquiet id
  | fiberClose a => exact absurd hquiet id
  | fiberSwap a => exact absurd hquiet id

section Firing

variable {e : Env} {cpi : Cpi} {a : ExecArgs} {w w' : Ledger} {s : Signal}
  (x : Execution e cpi a w w' s)

include x

/-- An obedient execution settles its own firing as a debt of the stored thread. -/
theorem owes_finished (hsorted : x.thread.fiberIds.Pairwise (· < ·))
    (hob : a.fiberCursor = designated x.thread) :
    Owes ⟨x.thread, a.fiberCursor, s⟩ x.finished := by
  have hcursor : (x.thread.sync a.fiberCursor).fiberCursor = a.fiberCursor := by
    rw [Thread.sync_fiberCursor]
    split
    · rfl
    · rename_i hchain
      rw [hob, designated, if_neg hchain]
  have hmem : a.fiberCursor ∈ x.thread.fiberIds := by
    have hvalid := x.valid
    rw [hcursor] at hvalid
    exact hvalid
  have hnext : (x.thread.sync a.fiberCursor).nextFiberIndex =
      cyclicNext x.thread.fiberIds a.fiberCursor := by
    rw [Thread.nextFiberIndex, Thread.sync_fiberIds, hcursor]
  unfold Owes
  rw [x.finished_fiberSignal, x.finished_fiberCursor, x.finished_fiberIds]
  by_cases hs : s = .chain
  · have hsignalled := x.signalled
    rw [if_pos hs, if_pos hs]
    subst hs
    have hlast : x.thread.fiberIds.getLastD a.fiberCursor ≠ a.fiberCursor := by
      intro hlast
      unfold Thread.downgrade at hsignalled
      split at hsignalled
      · exact absurd hsignalled (by simp)
      · rename_i hnot
        exact hnot ⟨hsignalled.symm, hlast⟩
    obtain ⟨hin, hlt⟩ := lt_getLastD hsorted hmem hlast
    exact ⟨rfl, hcursor, hmem, _, hin, hlt⟩
  · rw [if_neg hs, if_neg hs]
    split
    · exact Or.inl rfl
    · rename_i hclose
      refine Or.inr ⟨rfl, fun he => hclose (Or.inl he), ?_⟩
      unfold Firing.successor Thread.cursorAfter
      cases s with
      | next index => rfl
      | update paused trigger index =>
        cases index with
        | some index => rfl
        | none => exact hnext
      | none => exact hnext
      | again => exact hcursor
      | chain => exact absurd rfl hs
      | close => exact absurd (Or.inl rfl) hclose

/-- An obedient execution pays the debt to the firing before it. -/
theorem follows_of_owes {f : Firing} (howes : Owes f x.thread)
    (hsorted : x.thread.fiberIds.Pairwise (· < ·)) (hob : a.fiberCursor = designated x.thread) :
    Follows f ⟨x.thread, a.fiberCursor, s⟩ := by
  unfold Follows
  unfold Owes at howes
  by_cases hs : f.signal = .chain
  · rw [if_pos hs] at howes ⊢
    obtain ⟨hchain, hcursor, hmem, j, hj, hlt⟩ := howes
    have hidx : a.fiberCursor = cyclicNext x.thread.fiberIds f.index := by
      rw [hob, designated, if_pos hchain, Thread.nextFiberIndex, hcursor]
    refine ⟨hchain, hidx, ?_⟩
    rw [hidx]
    exact lt_cyclicNext hsorted hmem hj hlt
  · rw [if_neg hs] at howes ⊢
    rcases howes with hclose | ⟨hnone, hclose, hcursor⟩
    · exact absurd hclose x.notClosing
    · have hchain : x.thread.fiberSignal ≠ .chain := by
        rw [hnone]
        decide
      refine ⟨hchain, hclose, ?_⟩
      rw [hob, designated, if_neg hchain]
      exact hcursor

end Firing

/-- Steps of a run on which nothing disturbs the fibers and executors obey. -/
def Designating (_ : Ledger) (ev : Event) : Prop := Undisturbed ev ∧ Obedient ev

/-- The run lemma, with the last firing before the run, if there was one. -/
theorem firings_follow_after {e : Env} {thread : Pubkey} {w w' : Ledger} {events : List Event}
    (h : Run (Guarded (Step e thread) Designating) w events w')
    (hsorted : Holds thread (fun t => t.fiberIds.Pairwise (· < ·)) w) (last : Option Firing)
    (howes : ∀ f ∈ last, Holds thread (Owes f) w) :
    (last.toList ++ firings events).IsChain Follows := by
  induction h generalizing last with
  | nil u =>
    cases last with
    | none => exact List.isChain_nil
    | some f => exact List.isChain_singleton f
  | @cons u v z ev events hstep hrun ih =>
    obtain ⟨⟨hquiet, hob⟩, hstep⟩ := hstep
    have hsorted' := sorted_step hstep hsorted
    cases hfire : ev.firing? with
    | some g =>
      cases ev with
      | instruction ix => simp [Event.firing?] at hfire
      | other => simp [Event.firing?] at hfire
      | exec cpi a before outcome =>
        cases outcome with
        | closePath => simp [Event.firing?] at hfire
        | fiber s =>
          obtain ⟨rfl, hbefore, hexec⟩ := hstep
          obtain ⟨x⟩ := threadExec_fiber hexec
          obtain rfl : before = x.thread := Option.some.inj (hbefore.symm.trans x.stored)
          have hsort := hsorted _ x.stored
          have howes' : Holds a.thread (Owes ⟨x.thread, a.fiberCursor, s⟩) v := by
            intro t' ht'
            rw [x.eq_finished ht']
            exact owes_finished x hsort hob
          have hchain := ih hsorted' (some ⟨x.thread, a.fiberCursor, s⟩)
            (fun f hf => by rw [← Option.some.inj hf]; exact howes')
          have hfirings : firings (.exec cpi a x.thread (.fiber s) :: events) =
              ⟨x.thread, a.fiberCursor, s⟩ :: firings events := rfl
          rw [hfirings]
          cases last with
          | none => exact hchain
          | some f =>
            have hfollows := follows_of_owes x (howes f rfl _ x.stored) hsort hob
            exact List.isChain_cons_cons.mpr ⟨hfollows, hchain⟩
    | none =>
      have hfirings : firings (ev :: events) = firings events := by
        simp [firings, hfire]
      rw [hfirings]
      refine ih hsorted' last fun f hf t' ht' => ?_
      rcases step_cases hstep ht' with ⟨ix, rfl, heffect⟩ | ⟨cpi, a, s, x, rfl, hx, -, rfl⟩ |
        ⟨cpi, a, rfl, hsame, -⟩ | ⟨rfl, hsame⟩
      · exact owes_effect heffect hquiet (howes f hf)
      · simp [Event.firing?] at hfire
      · exact howes f hf t' hsame
      · exact howes f hf t' hsame

/-- The account that an execution of the run reads is the designated fiber's. -/
theorem designated_account {e : Env} {thread : Pubkey} {w w' : Ledger} {events : List Event}
    (h : Run (Guarded (Step e thread) Designating) w events w') {cpi : Cpi} {a : ExecArgs}
    {t : Thread} {s : Signal} (hmem : Event.exec cpi a t (.fiber s) ∈ events) :
    a.fiber = e.pubkey thread (designated t) := by
  induction h with
  | nil u => exact absurd hmem (by simp)
  | cons hstep _ ih =>
    rcases List.mem_cons.mp hmem with rfl | htail
    · obtain ⟨⟨-, hob⟩, rfl, -, hexec⟩ := hstep
      obtain ⟨x⟩ := threadExec_fiber hexec
      rw [x.fiber_eq, show a.fiberCursor = designated t from hob]
    · exact ih htail

/-- From every reachable state, on every run on which the fibers are left alone and
each executor passes the designated index, each execution runs the designated fiber
and each firing follows the signal of the one before. An execution with another
argument runs another fiber. -/
theorem firings_follow {e : Env} {thread : Pubkey} {w₀ w : Ledger} {events : List Event}
    (hr : Reachable e thread w₀) (h : Run (Guarded (Step e thread) Designating) w₀ events w) :
    (∀ cpi a t s, Event.exec cpi a t (.fiber s) ∈ events →
      a.fiber = e.pubkey thread (designated t)) ∧
    (firings events).IsChain Follows ∧
    (Function.Injective (e.pubkey thread) → ∀ cpi a t s w', w.threadAt thread = some t →
      a.thread = thread → threadExec e cpi a w = .ok (w', .fiber s) →
        (a.fiber = e.pubkey thread (designated t) ↔ a.fiberCursor = designated t)) := by
  refine ⟨fun cpi a t s hmem => designated_account h hmem, ?_, ?_⟩
  · exact firings_follow_after h (sorted_of_reachable hr) none (by simp)
  · intro hinj cpi a t s w' _ hthread hexec
    obtain ⟨x⟩ := threadExec_fiber hexec
    rw [x.fiber_eq, hthread]
    exact ⟨fun he => hinj he, fun he => by rw [he]⟩

set_option maxRecDepth 20000 in
/-- Outside any chain an executor runs fiber 1 while the cursor is on fiber 0. -/
theorem executor_chooses_fiber :
    ∃ w t w', Reachable sampleEnv 1 w ∧ w.threadAt 1 = some t ∧ t.fiberSignal = .none ∧
      threadExec sampleEnv (memoCpi .none) (sampleArgs 1) w = .ok (w', .fiber .none) ∧
      (sampleArgs 1).fiber ≠ sampleEnv.pubkey 1 t.fiberCursor := by
  have hrun : (fireOnce (.interval 10 false 0) 1 .none).map (fun r => (r.2.2,
      (r.1.threadAt 1).map fun t => (t.fiberSignal, t.fiberCursor))) =
        .ok (.fiber .none, some (.none, 0)) := by
    decide +kernel
  simp only [map_eq_ok, Prod.exists, Prod.mk.injEq] at hrun
  obtain ⟨w, w', o, hfire, rfl, hstored⟩ := hrun
  obtain ⟨hr, hexec⟩ := fireOnce_eq_ok hfire
  obtain ⟨t, ht, hfields⟩ := Option.map_eq_some_iff.mp hstored
  obtain ⟨hsignal, hcursor⟩ := Prod.mk.inj hfields
  refine ⟨w, t, w', hr, ht, hsignal, hexec, ?_⟩
  rw [hcursor]
  decide

set_option maxRecDepth 20000 in
/-- Fiber 0 chains, and fiber 1 runs next. -/
theorem chain_runs_next_fiber :
    ∃ w events w', Reachable sampleEnv 1 w ∧
      Run (Guarded (Step sampleEnv 1) Designating) w events w' ∧ (firings events).length = 2 ∧
      (firings events).IsChain Follows := by
  have hrun : (fireTwice (.interval 10 false 0) .chain .again).map (fun r => (r.2.2.2,
      (r.1.threadAt 1).map designated, (r.2.1.threadAt 1).map designated)) =
        .ok ((.fiber .chain, .fiber .again), some 0, some 1) := by
    decide +kernel
  simp only [map_eq_ok, Prod.exists, Prod.mk.injEq] at hrun
  obtain ⟨w, w₁, w₂, o₁, o₂, hfire, ⟨rfl, rfl⟩, hd, hd'⟩ := hrun
  obtain ⟨hr, t, t', ht, ht', hstep, hstep'⟩ := fireTwice_run hfire
  rw [ht, Option.map_some, Option.some.injEq] at hd
  rw [ht', Option.map_some, Option.some.injEq] at hd'
  have hguarded : Run (Guarded (Step sampleEnv 1) Designating) w
      [.exec (memoCpi .chain) (sampleArgs 0) t (.fiber .chain),
        .exec (memoCpi .again) (sampleArgs 1) t' (.fiber .again)] w₂ :=
    .cons ⟨⟨trivial, hd.symm⟩, hstep⟩ (.cons ⟨⟨trivial, hd'.symm⟩, hstep'⟩ (.nil w₂))
  exact ⟨w, _, w₂, hr, hguarded, rfl, (firings_follow hr hguarded).2.1⟩

end Antegen.ThreadProgram
