import Antegen.StagingActor

/-!
# Which threads are ready

The answer of `get_ready_threads` in full: which threads are in it, which entry each of them
was found by, and what is left in the queues. A thread is found in the first queue with a
live entry that is due, by the least of these entries. So the answer depends on the live
entries only, and compaction, which removes none of them, does not change it.
-/
namespace Antegen.Client

open Staging

namespace Scan

/-- Among the entries, the first of its thread that is live. -/
structure Earliest (trackedThreads : Pubkey → Option TrackedThread)
    (entries : ScheduledThread → Prop) (entry : ScheduledThread) : Prop where
  listed : entries entry
  live : Live trackedThreads entry
  least : ∀ other, entries other → Live trackedThreads other →
    other.threadPubkey = entry.threadPubkey → entry.triggerValue ≤ other.triggerValue

/-- The first live entries depend on the live entries only. -/
theorem Earliest.congr {trackedThreads : Pubkey → Option TrackedThread}
    {entries entries' : ScheduledThread → Prop}
    (h : ∀ x, Live trackedThreads x → (entries x ↔ entries' x)) {entry : ScheduledThread}
    (hentry : Earliest trackedThreads entries entry) :
    Earliest trackedThreads entries' entry where
  listed := (h entry hentry.live).mp hentry.listed
  live := hentry.live
  least other hlisted hlive := hentry.least other ((h other hlive).mpr hlisted) hlive

/-- Live entries of one thread with one moment make the same ready thread. -/
theorem readyThread_eq {trackedThreads : Pubkey → Option TrackedThread} {x y : ScheduledThread}
    (hx : Live trackedThreads x) (hy : Live trackedThreads y)
    (hkey : x.threadPubkey = y.threadPubkey) (hvalue : x.triggerValue = y.triggerValue)
    (queue : QueueType) (timestamp : ℤ) :
    readyThread queue timestamp x x.execCount = readyThread queue timestamp y y.execCount := by
  obtain ⟨tracked, htracked, -, hcount⟩ := hx
  obtain ⟨tracked', htracked', -, hcount'⟩ := hy
  rw [hkey, htracked'] at htracked
  obtain rfl := Option.some.inj htracked
  unfold readyThread
  rw [hkey, hvalue, hcount, hcount']

/-- Popped in ascending order, the entries add the ready threads of the first live ones. -/
theorem Sound.mem_foldl {c : Scan} (h : c.Sound)
    (trackedThreads : Pubkey → Option TrackedThread) (queue : QueueType) (timestamp : ℤ)
    {entries : List ScheduledThread}
    (hsorted : entries.Pairwise (·.triggerValue ≤ ·.triggerValue)) (r : ReadyThread) :
    r ∈ (entries.foldl (Scan.consider trackedThreads queue timestamp) c).ready ↔
      r ∈ c.ready ∨ ∃ entry, Earliest trackedThreads (· ∈ entries) entry ∧
        entry.threadPubkey ∉ c.processed ∧
        readyThread queue timestamp entry entry.execCount = r := by
  induction entries generalizing c with
  | nil =>
    refine ⟨Or.inl, ?_⟩
    rintro (hr | ⟨entry, hentry, -⟩)
    · exact hr
    · exact absurd hentry.listed List.not_mem_nil
  | cons x rest ih =>
    obtain ⟨hleast, hrest⟩ := List.pairwise_cons.mp hsorted
    rw [List.foldl_cons, ih (h.consider trackedThreads queue timestamp x).1 hrest]
    rcases consider_cases h trackedThreads queue timestamp x with
      ⟨hskipped, heq⟩ | ⟨hnew, hlive, heq⟩
    · -- an entry that is skipped is not the first live one of a new thread
      rw [heq]
      refine or_congr_right (exists_congr fun entry => ?_)
      constructor
      · rintro ⟨hentry, hfresh, hready⟩
        refine ⟨⟨List.mem_cons_of_mem x hentry.listed, hentry.live, ?_⟩, hfresh, hready⟩
        intro other hlisted hother hkey
        rcases List.mem_cons.mp hlisted with rfl | hlisted
        · rw [hkey] at hskipped
          exact absurd hother (hskipped.resolve_left hfresh)
        · exact hentry.least other hlisted hother hkey
      · rintro ⟨hentry, hfresh, hready⟩
        refine ⟨⟨?_, hentry.live, fun other hlisted =>
          hentry.least other (List.mem_cons_of_mem x hlisted)⟩, hfresh, hready⟩
        rcases List.mem_cons.mp hentry.listed with rfl | hlisted
        · exact absurd hentry.live (hskipped.resolve_left hfresh)
        · exact hlisted
    · -- a live entry of a new thread is the least one, and hides the later ones
      rw [heq]
      simp only [List.mem_append, List.mem_singleton, Finset.mem_insert, not_or]
      constructor
      · rintro ((hr | hr) | ⟨entry, hentry, ⟨hother, hfresh⟩, hready⟩)
        · exact Or.inl hr
        · refine Or.inr ⟨x, ⟨List.mem_cons_self, hlive, ?_⟩, hnew, hr.symm⟩
          intro other hlisted _ _
          rcases List.mem_cons.mp hlisted with rfl | hlisted
          · exact le_rfl
          · exact hleast other hlisted
        · refine Or.inr ⟨entry, ⟨List.mem_cons_of_mem x hentry.listed, hentry.live, ?_⟩, hfresh,
            hready⟩
          intro other hlisted hlive' hkey
          rcases List.mem_cons.mp hlisted with rfl | hlisted
          · exact absurd hkey.symm hother
          · exact hentry.least other hlisted hlive' hkey
      · rintro (hr | ⟨entry, hentry, hfresh, hready⟩)
        · exact Or.inl (Or.inl hr)
        · by_cases hkey : entry.threadPubkey = x.threadPubkey
          · have hvalue : entry.triggerValue = x.triggerValue := by
              refine le_antisymm (hentry.least x List.mem_cons_self hlive hkey.symm) ?_
              rcases List.mem_cons.mp hentry.listed with rfl | hlisted
              · exact le_rfl
              · exact hleast entry hlisted
            refine Or.inl (Or.inr ?_)
            rw [← hready]
            exact readyThread_eq hentry.live hlive hkey hvalue queue timestamp
          · refine Or.inr ⟨entry, ⟨?_, hentry.live, fun other hlisted =>
              hentry.least other (List.mem_cons_of_mem x hlisted)⟩, ⟨hkey, hfresh⟩, hready⟩
            exact (List.mem_cons.mp hentry.listed).resolve_left fun heq => hkey (heq ▸ rfl)

end Scan

namespace StagingState

/-- An entry that is live is not removed by compaction. -/
theorem current_of_live {Q : Type} {s : StagingState Q} {x : ScheduledThread}
    (h : Live s.trackedThreads x) : s.current x = true := by
  obtain ⟨tracked, htracked, -, hcount⟩ := h
  unfold current
  rw [htracked]
  exact decide_eq_true hcount

variable {Q Q' : Type} [MinHeap Q ScheduledThread.triggerValue]
  [MinHeap Q' ScheduledThread.triggerValue]

/-- An entry of the queue that is due. -/
def Due (s : StagingState Q) (clock : Clock) (queue : QueueType) (entry : ScheduledThread) :
    Prop :=
  s.Holds queue entry ∧ entry.due (currentValue clock queue) = true

/-- What checking one queue adds to the answer. -/
theorem mem_checkQueue (clock : Clock) (s : StagingState Q) {c : Scan} (h : c.Sound)
    (queue : QueueType) (r : ReadyThread) :
    r ∈ (s.checkQueue clock c queue).2.ready ↔
      r ∈ c.ready ∨ ∃ entry, Scan.Earliest s.trackedThreads (s.Due clock queue) entry ∧
        entry.threadPubkey ∉ c.processed ∧
        readyThread queue clock.unixTimestamp entry entry.execCount = r := by
  have hreset : Scan.Sound { c with latestExecCount := fun _ => none } :=
    ⟨h.processed, h.nodup, by simp⟩
  have hentries : ∀ x, x ∈ (MinHeap.popDue (currentValue clock queue) (s.queue queue)).1 ↔
      s.Due clock queue x := fun x => by
    simp only [MinHeap.mem_popDue, Due, Holds, ScheduledThread.due, decide_eq_true_eq]
  refine (hreset.mem_foldl s.trackedThreads queue clock.unixTimestamp
    (MinHeap.popDue_sorted _ _) r).trans ?_
  refine or_congr_right (exists_congr fun entry => and_congr_left fun _ => ?_)
  exact ⟨Scan.Earliest.congr fun x _ => hentries x, Scan.Earliest.congr fun x _ => (hentries x).symm⟩

/-- Two states with the same tracked threads and the same live entries. -/
structure SameLive (s : StagingState Q) (s' : StagingState Q') : Prop where
  tracked : s'.trackedThreads = s.trackedThreads
  holds : ∀ q x, Live s.trackedThreads x → (s.Holds q x ↔ s'.Holds q x)

theorem SameLive.symm {s : StagingState Q} {s' : StagingState Q'} (h : SameLive s s') :
    SameLive s' s where
  tracked := h.tracked.symm
  holds q x hlive := (h.holds q x (h.tracked ▸ hlive)).symm

/-- Two scans that have found the same. -/
structure SameFound (c c' : Scan) : Prop where
  ready : ∀ r, r ∈ c.ready ↔ r ∈ c'.ready
  processed : ∀ k, k ∈ c.processed ↔ k ∈ c'.processed

/-- Checking a queue takes no live entry out of another one. -/
theorem SameLive.checkQueue {s : StagingState Q} {s' : StagingState Q'} (h : SameLive s s')
    (clock : Clock) (c c' : Scan) (queue : QueueType) :
    SameLive (s.checkQueue clock c queue).1 (s'.checkQueue clock c' queue).1 := by
  refine ⟨h.tracked, fun q x hlive => ?_⟩
  rw [checkQueue_holds, checkQueue_holds, h.holds q x hlive]

theorem SameLive.due_iff {s : StagingState Q} {s' : StagingState Q'} (h : SameLive s s')
    (clock : Clock) (queue : QueueType) {x : ScheduledThread} (hlive : Live s.trackedThreads x) :
    s.Due clock queue x ↔ s'.Due clock queue x :=
  and_congr_left fun _ => h.holds queue x hlive

/-- The same live entries add the same ready threads. -/
theorem SameLive.found {s : StagingState Q} {s' : StagingState Q'} (h : SameLive s s')
    (clock : Clock) {c c' : Scan} (hc : c.Sound) (hc' : c'.Sound) (hfound : SameFound c c')
    (queue : QueueType) :
    SameFound (s.checkQueue clock c queue).2 (s'.checkQueue clock c' queue).2 := by
  constructor
  · intro r
    rw [mem_checkQueue clock s hc, mem_checkQueue clock s' hc', hfound.ready]
    refine or_congr_right (exists_congr fun entry => ?_)
    rw [hfound.processed, h.tracked]
    refine and_congr_left fun _ => ⟨Scan.Earliest.congr fun x hx => h.due_iff clock queue hx,
      Scan.Earliest.congr fun x hx => (h.due_iff clock queue hx).symm⟩
  · intro k
    rw [(checkQueue_spec clock s hc queue).2, (checkQueue_spec clock s' hc' queue).2,
      hfound.processed, h.tracked]
    refine or_congr_right (exists_congr fun entry => ?_)
    constructor
    · rintro ⟨hholds, hdue, hkey, hlive⟩
      exact ⟨(h.holds queue entry hlive).mp hholds, hdue, hkey, hlive⟩
    · rintro ⟨hholds, hdue, hkey, hlive⟩
      exact ⟨(h.holds queue entry hlive).mpr hholds, hdue, hkey, hlive⟩

/-- The answer depends on the live entries only, whatever else is in the queues and however
they are implemented. -/
theorem SameLive.getReadyThreads {s : StagingState Q} {s' : StagingState Q'} (h : SameLive s s')
    (clock : Clock) (r : ReadyThread) :
    r ∈ (s.getReadyThreads clock).2 ↔ r ∈ (s'.getReadyThreads clock).2 := by
  have hstart : Scan.Sound ⟨[], ∅, fun _ => none⟩ := ⟨by simp, by simp, by simp⟩
  have hfound := h.found clock hstart hstart ⟨fun _ => Iff.rfl, fun _ => Iff.rfl⟩ .timestamp
  have htime := (checkQueue_spec clock s hstart .timestamp).1
  have htime' := (checkQueue_spec clock s' hstart .timestamp).1
  have hleft := h.checkQueue clock ⟨[], ∅, fun _ => none⟩ ⟨[], ∅, fun _ => none⟩ .timestamp
  have hfoundSlot := hleft.found clock htime htime' hfound .slot
  have hslot := (checkQueue_spec clock
    (s.checkQueue clock ⟨[], ∅, fun _ => none⟩ .timestamp).1 htime .slot).1
  have hslot' := (checkQueue_spec clock
    (s'.checkQueue clock ⟨[], ∅, fun _ => none⟩ .timestamp).1 htime' .slot).1
  have hleftSlot := hleft.checkQueue clock
    (s.checkQueue clock ⟨[], ∅, fun _ => none⟩ .timestamp).2
    (s'.checkQueue clock ⟨[], ∅, fun _ => none⟩ .timestamp).2 .slot
  exact (hleftSlot.found clock hslot hslot' hfoundSlot .epoch).ready r

theorem sameLive_compactQueues (s : StagingState Q) : SameLive s.compactQueues s where
  tracked := rfl
  holds q x hlive := by
    rw [compactQueues_holds]
    exact and_iff_left (current_of_live hlive)

theorem checkQueue_queue (clock : Clock) (s : StagingState Q) (c : Scan) (queue : QueueType) :
    (s.checkQueue clock c queue).1.queue = Function.update s.queue queue
      (MinHeap.popDue (currentValue clock queue) (s.queue queue)).2 :=
  rfl

/-- Every queue is left with the entries that are not due, each as often as it was there. -/
theorem getReadyThreads_queue (s : StagingState Q) (clock : Clock) (q : QueueType) :
    (s.getReadyThreads clock).1.queue q =
      (MinHeap.popDue (currentValue clock q) (s.queue q)).2 := by
  unfold getReadyThreads
  simp only [checkQueue_queue]
  cases q <;> simp

/-- The answer holds each thread at most once, and those with a live entry that is due. The
due entries are taken out of the queues, and the others stay. Compaction before it changes
nothing. -/
theorem ready_selection_exact (s : StagingState Q) (clock : Clock) :
    ((s.getReadyThreads clock).2.map ReadyThread.threadPubkey).Nodup ∧
      (∀ k, k ∈ (s.getReadyThreads clock).2.map ReadyThread.threadPubkey ↔
        ∃ q, ∃ entry ∈ MinHeap.drain (s.queue q), entry.triggerValue ≤ currentValue clock q ∧
          entry.threadPubkey = k ∧ ∃ tracked, s.trackedThreads k = some tracked ∧
            tracked.paused = false ∧ entry.execCount = tracked.execCount) ∧
      (∀ q, (MinHeap.drain ((s.getReadyThreads clock).1.queue q)).Perm
        ((MinHeap.drain (s.queue q)).filter fun entry =>
          ¬ entry.triggerValue ≤ currentValue clock q)) ∧
      ∀ r, r ∈ (s.compactQueues.getReadyThreads clock).2 ↔ r ∈ (s.getReadyThreads clock).2 := by
  obtain ⟨hnodup, hmem⟩ := s.getReadyThreads_spec clock
  refine ⟨hnodup, fun k => (hmem k).trans ?_, fun q => ?_, ?_⟩
  · unfold Ready Live
    refine exists_congr fun q => exists_congr fun entry => and_congr_right fun _ => ?_
    simp only [ScheduledThread.due, decide_eq_true_eq]
    refine and_congr_right fun _ => and_congr_right fun hkey => ?_
    rw [hkey]
  · rw [getReadyThreads_queue]
    exact MinHeap.popDue_rest_perm
  · exact s.sameLive_compactQueues.getReadyThreads clock

end StagingState

end Antegen.Client
