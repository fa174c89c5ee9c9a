import Antegen.ThreadState

/-!
# The state machine of a thread

The part of an execution that is a function of the stored thread and of the signal
its fiber returned: synchronising the cursor inside a chain, downgrading a chain
that has nowhere to go, applying the signal, and the closing of immediate and
pausing of timestamp threads. `conclude` is their composition.
-/
namespace Antegen

def Trigger.isImmediate : Trigger → Bool
  | immediate _ => true
  | _ => false

def Trigger.isTimestamp : Trigger → Bool
  | timestamp _ _ => true
  | _ => false

/-- An update that explicitly sets `paused` to false. -/
def Signal.unpauses : Signal → Bool
  | update (some false) _ _ => true
  | _ => false

/-- The trigger a signal installs. -/
def Signal.newTrigger : Signal → Option Trigger
  | update _ trigger _ => trigger
  | _ => Option.none

/-- The pause state a signal sets. A new trigger unpauses unless told otherwise. -/
def Signal.newPaused : Signal → Option Bool
  | update (some paused) _ _ => some paused
  | update Option.none (some _) _ => some false
  | _ => Option.none

theorem Signal.newPaused_getD_false (s : Signal) : s.newPaused.getD false = false ↔
    ∀ trigger index, s ≠ .update (some true) trigger index := by
  cases s with
  | update paused trigger index =>
    rcases paused with _ | _ | _ <;> cases trigger <;> simp [newPaused]
  | none => simp [newPaused]
  | chain => simp [newPaused]
  | close => simp [newPaused]
  | again => simp [newPaused]
  | next index => simp [newPaused]

theorem Trigger.isImmediate_of_isTimestamp {trigger : Trigger} (h : trigger.isTimestamp = true) :
    trigger.isImmediate = false := by
  cases trigger with
  | timestamp unixTs jitter => rfl
  | _ => exact absurd h (by simp [isTimestamp])

namespace Thread

/-- Inside a chain the cursor is set to the executor's argument. -/
def sync (t : Thread) (fiberCursor : UInt8) : Thread :=
  if t.fiberSignal = .chain then { t with fiberCursor := fiberCursor } else t

/-- A chain from the last fiber has nowhere to go. -/
def downgrade (t : Thread) (fiberCursor : UInt8) (s : Signal) : Signal :=
  if s = .chain ∧ t.fiberIds.getLastD fiberCursor = fiberCursor then .none else s

/-- Only `chain` and `close` persist; all other signals are consumed at once. -/
def applySignal (t : Thread) (s : Signal) : Thread :=
  let t := { t with fiberSignal := .none }
  match s with
  | .chain => { t with fiberSignal := .chain }
  | .close => { t with fiberSignal := .close }
  | .next index => { t with fiberCursor := index }
  | .update paused trigger index =>
    let t := { t with
      paused := if trigger.isSome ∧ paused.isNone then false else paused.getD t.paused
      trigger := trigger.getD t.trigger }
    match index with
    | some index => { t with fiberCursor := index }
    | none => t.advanceToNextFiber
  | .again => t
  | .none => t.advanceToNextFiber

def autoClose (fired : Trigger) (s : Signal) (t : Thread) : Thread :=
  if fired.isImmediate ∧ s ≠ .chain then { t with fiberSignal := .close } else t

def autoPause (fired : Trigger) (s : Signal) (t : Thread) : Thread :=
  if fired.isTimestamp ∧ s ≠ .chain ∧ ¬ s.unpauses then { t with paused := true } else t

/-- The thread after its fiber has returned, up to schedule and counters. -/
def conclude (t : Thread) (s : Signal) : Thread :=
  autoPause t.trigger s (autoClose t.trigger s (t.applySignal s))

/-- Where a signal leaves the cursor. -/
def cursorAfter (t : Thread) : Signal → UInt8
  | .next index => index
  | .update _ _ (some index) => index
  | .update _ _ none => t.nextFiberIndex
  | .none => t.nextFiberIndex
  | _ => t.fiberCursor

theorem cursorAfter_none (t : Thread) : t.cursorAfter .none = t.nextFiberIndex := rfl

section Fields

variable (t : Thread) (s : Signal) (c : UInt8)

@[simp] theorem sync_fiberIds : (t.sync c).fiberIds = t.fiberIds := by
  unfold sync
  split <;> rfl

@[simp] theorem sync_trigger : (t.sync c).trigger = t.trigger := by
  unfold sync
  split <;> rfl

@[simp] theorem sync_paused : (t.sync c).paused = t.paused := by
  unfold sync
  split <;> rfl

@[simp] theorem sync_fiberCursor :
    (t.sync c).fiberCursor = if t.fiberSignal = .chain then c else t.fiberCursor := by
  unfold sync
  split <;> rfl

@[simp] theorem sync_downgrade (d : UInt8) : (t.sync c).downgrade d s = t.downgrade d s := by
  simp only [downgrade, sync_fiberIds]

/-- Nothing but cursor, signal, pause and trigger is touched by a signal. -/
theorem conclude_eq : t.conclude s = { t with
    fiberCursor := (t.conclude s).fiberCursor
    fiberSignal := (t.conclude s).fiberSignal
    paused := (t.conclude s).paused
    trigger := (t.conclude s).trigger } := by
  unfold conclude autoPause autoClose
  cases s with
  | update paused trigger index => cases index <;> (split <;> split <;> rfl)
  | none => split <;> split <;> rfl
  | chain => split <;> split <;> rfl
  | close => split <;> split <;> rfl
  | again => split <;> split <;> rfl
  | next index => split <;> split <;> rfl

@[simp] theorem conclude_fiberIds : (t.conclude s).fiberIds = t.fiberIds := by
  rw [conclude_eq]

theorem conclude_fiberCursor : (t.conclude s).fiberCursor = t.cursorAfter s := by
  have h : (t.conclude s).fiberCursor = (t.applySignal s).fiberCursor := by
    unfold conclude autoPause autoClose
    split <;> split <;> rfl
  rw [h]
  cases s with
  | update paused trigger index => cases index <;> rfl
  | none => rfl
  | chain => rfl
  | close => rfl
  | again => rfl
  | next index => rfl

/-- A close is pending if the fiber asked for it or the fired trigger was immediate. -/
theorem conclude_fiberSignal : (t.conclude s).fiberSignal =
    if s = .chain then .chain
    else if s = .close ∨ t.trigger.isImmediate then .close
    else .none := by
  have h : (t.conclude s).fiberSignal =
      (autoClose t.trigger s (t.applySignal s)).fiberSignal := by
    unfold conclude autoPause
    split <;> rfl
  rw [h]
  unfold autoClose
  cases s with
  | update paused trigger index =>
    cases index <;> (split <;> simp_all [applySignal, advanceToNextFiber])
  | none => split <;> simp_all [applySignal, advanceToNextFiber]
  | chain => split <;> simp_all [applySignal]
  | close => split <;> simp_all [applySignal]
  | again => split <;> simp_all [applySignal]
  | next index => split <;> simp_all [applySignal]

theorem applySignal_paused : (t.applySignal s).paused = s.newPaused.getD t.paused := by
  cases s with
  | update paused trigger index => cases index <;> cases paused <;> cases trigger <;> rfl
  | none => rfl
  | chain => rfl
  | close => rfl
  | again => rfl
  | next index => rfl

theorem conclude_paused : (t.conclude s).paused =
    if t.trigger.isTimestamp ∧ s ≠ .chain ∧ ¬ s.unpauses then true
    else s.newPaused.getD t.paused := by
  have h : (autoClose t.trigger s (t.applySignal s)).paused = (t.applySignal s).paused := by
    unfold autoClose
    split <;> rfl
  unfold conclude autoPause
  split
  · rfl
  · rw [h, applySignal_paused]

theorem conclude_trigger : (t.conclude s).trigger = s.newTrigger.getD t.trigger := by
  have h : (t.conclude s).trigger = (t.applySignal s).trigger := by
    unfold conclude autoPause autoClose
    split <;> split <;> rfl
  rw [h]
  cases s with
  | update paused trigger index => cases index <;> rfl
  | none => rfl
  | chain => rfl
  | close => rfl
  | again => rfl
  | next index => rfl

end Fields

end Thread

/-! ## The cyclic successor -/

theorem cyclicNext_mem {ids : List UInt8} (h : ids ≠ []) (c : UInt8) : cyclicNext ids c ∈ ids := by
  have hlen : 0 < ids.length := List.length_pos_iff.mpr h
  unfold cyclicNext
  rw [if_neg h]
  split
  · rename_i pos _
    have hlt := Nat.mod_lt (pos + 1) hlen
    rw [List.getD_eq_getElem?_getD, List.getElem?_eq_getElem hlt, Option.getD_some]
    exact List.getElem_mem hlt
  · cases ids with
    | nil => exact absurd rfl h
    | cons x xs => simp

/-- In a list of two or more indices the cyclic successor is another one. -/
theorem cyclicNext_ne {ids : List UInt8} (hs : ids.Nodup) {c : UInt8} (hc : c ∈ ids)
    (hlen : 1 < ids.length) : cyclicNext ids c ≠ c := by
  have hne : ids ≠ [] := List.ne_nil_of_mem hc
  unfold cyclicNext
  rw [if_neg hne]
  split
  · rename_i pos hpos
    obtain ⟨hlt, heq, -⟩ := List.idxOf?_eq_some_iff.mp hpos
    have heq' : ids[pos] = c := by simpa using heq
    have hnext : (pos + 1) % ids.length < ids.length := Nat.mod_lt _ (by omega)
    have hdiff : (pos + 1) % ids.length ≠ pos := by
      by_cases hend : pos + 1 = ids.length
      · rw [hend, Nat.mod_self]
        omega
      · rw [Nat.mod_eq_of_lt (by omega)]
        omega
    rw [List.getD_eq_getElem?_getD, List.getElem?_eq_getElem hnext, Option.getD_some, ← heq']
    intro hsame
    exact hdiff ((List.Nodup.getElem_inj_iff hs).mp hsame)
  · rename_i hnone
    exact absurd hc (List.idxOf?_eq_none_iff.mp hnone)

/-- Below a tracked index the cyclic successor is the next larger one. -/
theorem lt_cyclicNext {ids : List UInt8} (hs : ids.Pairwise (· < ·)) {c j : UInt8} (hc : c ∈ ids)
    (hj : j ∈ ids) (hlt : c < j) : c < cyclicNext ids c := by
  have hne : ids ≠ [] := List.ne_nil_of_mem hc
  unfold cyclicNext
  rw [if_neg hne]
  split
  · rename_i pos hpos
    obtain ⟨hpos, heq, -⟩ := List.idxOf?_eq_some_iff.mp hpos
    have heq' : ids[pos] = c := by simpa using heq
    obtain ⟨k, hk, hkj⟩ := List.getElem_of_mem hj
    have hless : pos < k := by
      by_contra hge
      rcases Nat.lt_or_eq_of_le (Nat.le_of_not_lt hge) with hkp | rfl
      · have hjc := List.pairwise_iff_getElem.mp hs k pos hk hpos hkp
        rw [hkj, heq'] at hjc
        exact absurd hlt (UInt8.lt_asymm hjc)
      · rw [← heq', hkj] at hlt
        exact UInt8.lt_irrefl j hlt
    have hnext : pos + 1 < ids.length := by omega
    rw [Nat.mod_eq_of_lt hnext, List.getD_eq_getElem?_getD, List.getElem?_eq_getElem hnext,
      Option.getD_some, ← heq']
    exact List.pairwise_iff_getElem.mp hs pos (pos + 1) hpos hnext (by omega)
  · rename_i hnone
    exact absurd hc (List.idxOf?_eq_none_iff.mp hnone)

/-- An index that is not the last one is below the last one. -/
theorem lt_getLastD {ids : List UInt8} (hs : ids.Pairwise (· < ·)) {c : UInt8} (hc : c ∈ ids)
    (hlast : ids.getLastD c ≠ c) : ids.getLastD c ∈ ids ∧ c < ids.getLastD c := by
  obtain ⟨pos, hpos, heq⟩ := List.getElem_of_mem hc
  have hend : ids.length - 1 < ids.length := by omega
  have hget : ids.getLastD c = ids[ids.length - 1] := by
    rw [List.getLastD_eq_getLast?, List.getLast?_eq_getElem?, List.getElem?_eq_getElem hend,
      Option.getD_some]
  rw [hget] at hlast ⊢
  have hless : pos < ids.length - 1 := by
    by_contra hge
    have hp : pos = ids.length - 1 := by omega
    subst hp
    exact hlast heq
  refine ⟨List.getElem_mem hend, ?_⟩
  rw [← heq]
  exact List.pairwise_iff_getElem.mp hs pos (ids.length - 1) hpos hend hless

end Antegen
