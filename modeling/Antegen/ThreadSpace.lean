import Antegen.Authority
import Antegen.CompiledSize
import Antegen.ThreadName

/-!
# Room for a thread

A thread account is allocated once, with a number of bytes reserved for each field. The
name and the list of fibers can outgrow what is reserved for them, but the pending signal
and the close instruction never use up theirs. So the exit of an instruction always finds
room for the record, as long as the triggers that were set leave some.
-/
namespace Antegen.ThreadProgram

open Transition

/-- Bytes of a trigger for which there is room, more than the account reserves. -/
def triggerRoom : ℕ := 413

/-- The step sets no trigger that is longer. -/
def SetsSmall : Ledger → Event → Prop
  | _, .instruction (.threadCreate a) => a.trigger.size ≤ triggerRoom
  | _, .instruction (.threadUpdate a) => ∀ trigger ∈ a.trigger, trigger.size ≤ triggerRoom
  | _, .exec _ _ _ (.fiber s) => ∀ trigger ∈ s.newTrigger, trigger.size ≤ triggerRoom
  | _, _ => True

/-- The two fields whose length depends on what instructions and fibers pass. -/
structure Compact (t : Thread) : Prop where
  trigger : t.trigger.size ≤ triggerRoom
  fiberSignal : t.fiberSignal.size = 1

/-- The record of a thread that was created with the id. -/
def recordOf (id : ThreadId) (t : Thread) : ThreadRecord := ⟨t, id.toName, ""⟩

/-! ## What each step keeps short -/

section Steps

variable {e : Env} {thread : Pubkey} {w w' : Ledger}

/-- The step lemma for instructions: they set a trigger, and start without a signal. -/
theorem compact_process {ix : Ix} {t' : Thread} (hsmall : SetsSmall w (.instruction ix))
    (h : process e ix w = .ok w') (ht' : w'.threadAt ix.thread = some t')
    (hI : Holds ix.thread Compact w) : Compact t' := by
  rcases process_cases h ht' with ⟨a, bump, nonce, schedule, closeFiber, rfl, rfl, -, -⟩ |
    ⟨a, t, rfl, ht, hupdate⟩ | ⟨t, ht, hframe⟩
  · exact ⟨hsmall, rfl⟩
  · obtain ⟨htrigger, hsignal⟩ := hI t ht
    unfold updatedThread at hupdate
    cases hnew : a.trigger with
    | none =>
      rw [hnew] at hupdate
      rw [← Except.ok.inj hupdate]
      exact ⟨htrigger, hsignal⟩
    | some trigger =>
      simp only [hnew, bind_eq_ok, pure_eq_ok] at hupdate
      obtain ⟨schedule, -, rfl⟩ := hupdate
      exact ⟨hsmall trigger hnew, hsignal⟩
  · obtain ⟨htrigger, hsignal⟩ := hI t ht
    rw [hframe]
    exact ⟨htrigger, hsignal⟩

/-- The step lemma for executions: only a chain and a close are pending after one. -/
theorem compact_finished {cpi : Cpi} {a : ExecArgs} {s : Signal} (x : Execution e cpi a w w' s)
    (hsmall : ∀ trigger ∈ s.newTrigger, trigger.size ≤ triggerRoom) (hx : Compact x.thread) :
    Compact x.finished := by
  constructor
  · rw [x.finished_trigger]
    cases hnew : s.newTrigger with
    | none => exact hx.trigger
    | some trigger => exact hsmall trigger hnew
  · rw [x.finished_fiberSignal]
    split_ifs <;> rfl

theorem compact_of_run {w₀ : Ledger} {events : List Event} (hnone : w₀.threadAt thread = none)
    (h : Run (Guarded (Step e thread) SetsSmall) w₀ events w) : Holds thread Compact w := by
  refine h.invariant (I := Holds thread Compact) (fun u ev u' hu hstep t' ht' => ?_) fun t ht => ?_
  · obtain ⟨hsmall, hstep⟩ := hstep
    rcases step_cases hstep ht' with ⟨ix, rfl, -⟩ | ⟨cpi, a, s, x, rfl, hx, -, rfl⟩ |
      ⟨cpi, a, -, hsame, -⟩ | ⟨-, hsame⟩
    · obtain ⟨rfl, hprocess⟩ := hstep
      exact compact_process hsmall hprocess ht' hu
    · exact compact_finished x hsmall (hu _ hx)
    · exact hu t' hsame
    · exact hu t' hsame
  · rw [hnone] at ht
    exact absurd ht (by simp)

end Steps

theorem reachable_of_guarded {e : Env} {thread : Pubkey} {guard : Ledger → Event → Prop}
    {w₀ w : Ledger} {events : List Event} (hnone : w₀.threadAt thread = none)
    (h : Run (Guarded (Step e thread) guard) w₀ events w) : Reachable e thread w :=
  ⟨w₀, events, hnone, h.mono fun _ _ _ hstep => hstep.2⟩

/-! ## The other fields -/

theorem schedule_size_le (s : Schedule) : s.size ≤ 17 := by
  cases s <;> simp [Schedule.size]

/-- A strictly increasing list of bytes. -/
theorem length_le_of_sorted {ids : List UInt8} (h : ids.Pairwise (· < ·)) : ids.length ≤ 256 := by
  have hnodup : (ids.map UInt8.toNat).Nodup := by
    refine List.Nodup.map (fun _ _ => UInt8.toNat_inj.mp) (h.imp fun hlt => ?_)
    exact UInt8.ne_of_lt hlt
  have hsub : ids.map UInt8.toNat ⊆ List.range 256 := by
    intro n hn
    obtain ⟨i, -, rfl⟩ := List.mem_map.mp hn
    exact List.mem_range.mpr i.toNat_lt
  simpa using (List.subperm_of_subset hnodup hsub).length_le

/-- The stored `thread_close` names at most four accounts beside the program. -/
theorem closeFiber_length_le {thread : Pubkey} {t : Thread} (h : StoresClose thread t) :
    t.closeFiber.length ≤ 192 := by
  obtain ⟨o, authority, hcompile⟩ := h
  have hlength := compileToBytes_length hcompile
  have hkeys := keyTable_length_le o (closeThreadInstruction authority thread)
  rw [keyTable_length] at hkeys
  have haccounts : (closeThreadInstruction authority thread).accounts.length = 4 := rfl
  have hdata : (closeThreadInstruction authority thread).data.length = 8 := rfl
  unfold compiledSize at hlength
  omega

/-- The room for the trigger is what the longest other fields leave of the account. -/
theorem recordOf_size_le {thread : Pubkey} {t : Thread} {id : ThreadId} (hid : id.asRef = t.id)
    (hseed : t.id.length ≤ 32) (hsorted : t.fiberIds.Pairwise (· < ·)) (hcompact : Compact t)
    (hclose : StoresClose thread t) : 8 + (recordOf id t).size ≤ threadSpace := by
  have hname := id.toName_size
  have hschedule := schedule_size_le t.schedule
  have hids := length_le_of_sorted hsorted
  have hcloseFiber := closeFiber_length_le hclose
  have htrigger := hcompact.trigger
  have hsignal := hcompact.fiberSignal
  have hempty : ("" : String).utf8ByteSize = 0 := rfl
  rw [hid] at hname
  unfold ThreadRecord.size recordOf threadSpace triggerRoom at *
  dsimp only
  omega

/-- Ids are seeds of an address, so the runtime bounds them. -/
def BoundsSeeds (e : Env) : Prop :=
  ∀ authority id bump thread, e.threadAddress authority id bump = some thread → id.length ≤ 32

/-- Every thread that a run leads to can be stored in its account and is read back from it,
whatever the account held before, if the numbers in it have their widths: up to 256 fibers,
names up to three times as long as the id, and any trigger of at most 413 bytes. -/
theorem record_fits {e : Env} {thread : Pubkey} {w₀ w : Ledger} {events : List Event}
    (hseeds : BoundsSeeds e) (hnone : w₀.threadAt thread = none)
    (h : Run (Guarded (Step e thread) SetsSmall) w₀ events w) {t : Thread}
    (ht : w.threadAt thread = some t) {id : ThreadId} (hid : id.asRef = t.id)
    {bytes data : List UInt8} (henc : ThreadRecord.codec.enc (recordOf id t) = some bytes)
    (hdata : data.length = threadSpace) :
    ∃ out, (recordOf id t).write data = .ok out ∧ out.length = threadSpace ∧
      ThreadRecord.tryDeserialize out = .ok (recordOf id t) := by
  have hreach := reachable_of_guarded hnone h
  have hseed := hseeds _ _ _ _ (addressed_of_reachable hreach t ht).address
  have hle := recordOf_size_le hid hseed (sorted_of_reachable hreach t ht)
    (compact_of_run hnone h t ht) (storesClose_of_reachable hreach t ht)
  obtain ⟨out, hout⟩ := (ThreadRecord.exists_write henc).mpr (hdata ▸ hle)
  exact ⟨out, hout, (ThreadRecord.write_length hout).trans hdata,
    ThreadRecord.tryDeserialize_write hout⟩

/-- The new thread 1, named after the unprintable byte of its id. -/
theorem record_fits_sample : ∃ w t out,
    threadCreate soloEnv (sampleCreate (.interval 10 false 0)) payerLedger = .ok w ∧
      w.threadAt 1 = some t ∧
      (recordOf (.bytes [1]) t).write (List.replicate threadSpace 0) = .ok out ∧
      ThreadRecord.tryDeserialize out = .ok (recordOf (.bytes [1]) t) := by
  have hrun : (threadCreate soloEnv (sampleCreate (.interval 10 false 0)) payerLedger).map
      (fun w => (w.threadAt 1).map fun t =>
        (decide (t.id = [1]), (ThreadRecord.codec.enc (recordOf (.bytes [1]) t)).isSome)) =
          .ok (some (true, true)) := by
    decide +kernel
  obtain ⟨w, hw, hstored⟩ := map_eq_ok.mp hrun
  obtain ⟨t, ht, hfields⟩ := Option.map_eq_some_iff.mp hstored
  obtain ⟨hid, henc⟩ := Prod.mk.inj hfields
  obtain ⟨bytes, henc⟩ := Option.isSome_iff_exists.mp henc
  have hsmall : (Trigger.interval 10 false 0).size ≤ triggerRoom := by decide
  have hstep : Guarded (Step soloEnv 1) SetsSmall payerLedger
      (.instruction (.threadCreate (sampleCreate (.interval 10 false 0)))) w :=
    ⟨hsmall, rfl, hw⟩
  have hseeds : BoundsSeeds soloEnv := by
    intro authority id bump thread h
    simp only [soloEnv, Option.ite_none_right_eq_some] at h
    rw [h.1.2.1]
    decide
  have hasRef : (ThreadId.bytes [1]).asRef = t.id := (of_decide_eq_true hid).symm
  obtain ⟨out, hout, -, hread⟩ := record_fits hseeds (by decide) (.cons hstep (.nil w)) ht hasRef
    henc List.length_replicate
  exact ⟨w, t, out, hw, ht, hout, hread⟩

end Antegen.ThreadProgram
