import Antegen.Activity
import Antegen.Scheduling

/-!
# What only the authority can change

Every instruction on a thread but `thread_exec` and the admin's `thread_delete` demands the
signature of the thread's authority or of the thread itself, and a thread signs only for
the callees of its own executions. An execution serializes the copy that it loaded, so
whatever its callee does with that signature, the thread keeps everything that only its
authority may change.
-/
namespace Antegen.ThreadProgram

open Ledger

/-- Address derivation tells authorities apart. -/
def Separates (e : Env) : Prop :=
  ∀ authority id bump authority' id' bump' thread,
    e.threadAddress authority id bump = some thread →
    e.threadAddress authority' id' bump' = some thread → authority = authority'

/-- The thread is stored at the address derived from its authority and id. -/
structure Addressed (e : Env) (thread : Pubkey) (t : Thread) : Prop where
  bump : e.threadBump t.authority t.id = some t.bump
  address : e.threadAddress t.authority t.id t.bump = some thread

/-- Authority and id name one address. -/
theorem Addressed.unique {e : Env} {thread thread' : Pubkey} {t t' : Thread}
    (h : Addressed e thread t) (h' : Addressed e thread' t')
    (hauthority : t.authority = t'.authority)
    (hid : t.id = t'.id) : thread = thread' := by
  have hbump : t.bump = t'.bump := by
    have hsame := h.bump
    rw [hauthority, hid, h'.bump] at hsame
    exact (Option.some.inj hsame).symm
  have haddress := h.address
  rw [hauthority, hid, hbump, h'.address] at haddress
  exact (Option.some.inj haddress).symm

/-- A key without a signature that is no address of a thread, so that no execution can sign
for it. -/
structure Absent (e : Env) (signed : Set Pubkey) (k : Pubkey) : Prop where
  unsigned : k ∉ signed
  wallet : ∀ authority id bump, e.threadAddress authority id bump ≠ some k

/-- The thread differs in what executions write, and was executed as often or more often. -/
structure Succeeds (t t' : Thread) : Prop where
  frame : t' = { t with
    trigger := t'.trigger
    schedule := t'.schedule
    fiberCursor := t'.fiberCursor
    fiberSignal := t'.fiberSignal
    paused := t'.paused
    execCount := t'.execCount
    lastExecutor := t'.lastExecutor }
  executions : t.execCount ≤ t'.execCount

namespace Succeeds

theorem refl (t : Thread) : Succeeds t t := ⟨rfl, le_rfl⟩

theorem trans {t u t' : Thread} (h : Succeeds t u) (h' : Succeeds u t') : Succeeds t t' := by
  refine ⟨?_, h.executions.trans h'.executions⟩
  rw [h'.frame, h.frame]

theorem authority {t t' : Thread} (h : Succeeds t t') : t'.authority = t.authority := by
  rw [h.frame]

end Succeeds

theorem Execution.finished_succeeds {e : Env} {cpi : Cpi} {a : ExecArgs} {w w' : Ledger}
    {s : Signal} (x : Execution e cpi a w w' s) : Succeeds x.thread x.finished := by
  constructor
  · rw [x.finished_eq, Thread.conclude_eq]
    unfold Thread.sync
    split <;> rfl
  · rw [x.finished_eq]
    exact Nat.le_succ _

/-! ## Who may change a thread -/

/-- The account that signs for the change. -/
def Ix.authority : Ix → Pubkey
  | threadCreate a => a.authority
  | threadUpdate a => a.authority
  | fiberCreate a => a.authority
  | fiberUpdate a => a.authority
  | fiberClose a => a.authority
  | fiberSwap a => a.authority

theorem Ix.authority_mem (ix : Ix) : ix.authority ∈ ix.signers := by
  cases ix <;> exact List.mem_cons_self

/-- An instruction is signed for by whom the address is derived from, or by the authority
of the stored thread, or by the thread. -/
theorem process_authorized {e : Env} {ix : Ix} {w w' : Ledger} (h : process e ix w = .ok w') :
    (∃ id bump, e.threadAddress ix.authority id bump = some ix.thread) ∨
      ∃ t, w.threadAt ix.thread = some t ∧
        (ix.authority = t.authority ∨ ix.authority = ix.thread) := by
  cases ix with
  | threadCreate a =>
    simp only [process, threadCreate, bind_eq_ok, require_eq_ok, exists_and_left, exists_const] at h
    obtain ⟨bump, -, haddress, -⟩ := h
    exact Or.inl ⟨a.id, bump, haddress⟩
  | threadUpdate a =>
    simp only [process, threadUpdate, bind_eq_ok, require_eq_ok, exists_and_left, exists_const,
      loadThread_eq_ok] at h
    obtain ⟨t, ht, -, -, hauthority, -⟩ := h
    exact Or.inr ⟨t, ht, Or.inl hauthority⟩
  | fiberCreate a =>
    simp only [process, fiberCreate, checkAuthority, bind_eq_ok, require_eq_ok, exists_and_left,
      exists_const, loadThread_eq_ok] at h
    obtain ⟨t, ht, hauthority, -⟩ := h
    exact Or.inr ⟨t, ht, hauthority⟩
  | fiberUpdate a =>
    simp only [process, fiberUpdate, checkAuthority, bind_eq_ok, require_eq_ok, exists_and_left,
      exists_const, loadThread_eq_ok] at h
    obtain ⟨t, ht, hauthority, -⟩ := h
    exact Or.inr ⟨t, ht, hauthority⟩
  | fiberClose a =>
    simp only [process, fiberClose, checkAuthority, bind_eq_ok, require_eq_ok, exists_and_left,
      exists_const, loadThread_eq_ok] at h
    obtain ⟨t, ht, hauthority, -⟩ := h
    exact Or.inr ⟨t, ht, hauthority⟩
  | fiberSwap a =>
    simp only [process, fiberSwap, checkAuthority, bind_eq_ok, require_eq_ok, exists_and_left,
      exists_const, loadThread_eq_ok] at h
    obtain ⟨t, ht, hauthority, -⟩ := h
    exact Or.inr ⟨t, ht, hauthority⟩

theorem threadExec_address {e : Env} {cpi : Cpi} {a : ExecArgs} {w w' : Ledger}
    {outcome : Outcome} (h : threadExec e cpi a w = .ok (w', outcome)) :
    ∃ authority id bump, e.threadAddress authority id bump = some a.thread := by
  simp only [threadExec, bind_eq_ok, require_eq_ok, exists_and_left, exists_const] at h
  obtain ⟨t, -, haddress, -⟩ := h
  exact ⟨_, _, _, haddress⟩

/-- The seeds of a stored thread are checked when it is created and are never changed. -/
theorem addressed_of_reachable {e : Env} {thread : Pubkey} {w : Ledger}
    (h : Reachable e thread w) : Holds thread (Addressed e thread) w := by
  refine h.holds (fun u ix u' t' hp hix ht' hu => ?_) fun cpi a u u' s x _ _ hx => ?_
  · subst hix
    rcases process_cases hp ht' with ⟨a, bump, nonce, schedule, closeFiber, rfl, -, -, -⟩ |
      ⟨a, t, -, ht, hupdate⟩ | ⟨t, ht, hframe⟩
    · simp only [process, threadCreate, bind_eq_ok, require_eq_ok, exists_and_left, exists_const,
        ofOption_eq_ok, Prod.exists] at hp
      obtain ⟨bump, hbump, haddress, w1, -, w2, nonce, -, schedule, -, bytes, -, w3, -, w4, -,
        hexit⟩ := hp
      obtain rfl := eq_of_threadAt_exitThread hexit ht'
      exact ⟨hbump, haddress⟩
    · obtain ⟨hbump, haddress⟩ := hu t ht
      rw [updatedThread_eq hupdate]
      exact ⟨hbump, haddress⟩
    · obtain ⟨hbump, haddress⟩ := hu t ht
      rw [hframe]
      exact ⟨hbump, haddress⟩
  · obtain ⟨hbump, haddress⟩ := hx
    rw [x.finished_succeeds.frame]
    exact ⟨hbump, haddress⟩

/-- Whatever has happened since there were no threads, each stored thread has its list of
fibers in order, a schedule that suits its trigger and its own close instruction, and no
other address stores a thread of the same authority and id. -/
theorem Activity.threads_sound {e : Env} {admins signed : Set Pubkey} {w₀ w : Ledger}
    (h₀ : ∀ k, w₀.threadAt k = none) (h : Activity e admins signed w₀ w) {thread : Pubkey}
    {t : Thread} (ht : w.threadAt thread = some t) :
    t.fiberIds.Pairwise (· < ·) ∧ t.trigger.Suits t.schedule ∧ StoresClose thread t ∧
      ∀ thread' t', w.threadAt thread' = some t' → t.authority = t'.authority → t.id = t'.id →
        thread = thread' := by
  have hreach := fun k => h.reachable h₀ k
  refine ⟨sorted_of_reachable (hreach thread) t ht, suits_of_reachable (hreach thread) t ht,
    storesClose_of_reachable (hreach thread) t ht, fun thread' t' ht' hauthority hid => ?_⟩
  exact (addressed_of_reachable (hreach thread) t ht).unique
    (addressed_of_reachable (hreach thread') t' ht') hauthority hid

/-! ## Activity without the authority -/

section Unsigned

variable {e : Env} {admins signed : Set Pubkey} {thread : Pubkey} {t : Thread} {w w' : Ledger}

theorem Absent.insert {k T : Pubkey} (h : Absent e signed k)
    (hT : ∃ authority id bump, e.threadAddress authority id bump = some T) :
    Absent e (insert T signed) k := by
  refine ⟨fun hk => ?_, h.wallet⟩
  rcases hk with rfl | hk
  · obtain ⟨authority, id, bump, haddress⟩ := hT
    exact h.wallet _ _ _ haddress
  · exact h.unsigned hk

/-- No instruction on the thread succeeds without one of the two signatures. -/
theorem process_unauthorized (hsep : Separates e) (haddress : Addressed e thread t)
    (habsent : Absent e signed t.authority) (hself : thread ∉ signed)
    (hI : Holds thread (Succeeds t) w) {ix : Ix} (hsigned : ∀ k ∈ ix.signers, k ∈ signed)
    (hix : ix.thread = thread) : process e ix w ≠ .ok w' := by
  subst hix
  intro h
  have hauthority := hsigned _ ix.authority_mem
  rcases process_authorized h with ⟨id, bump, hderived⟩ | ⟨u, hu, hwho⟩
  · rw [hsep _ _ _ _ _ _ _ hderived haddress.address] at hauthority
    exact habsent.unsigned hauthority
  · rcases hwho with hwho | hwho
    · rw [hwho, (hI u hu).authority] at hauthority
      exact habsent.unsigned hauthority
    · rw [hwho] at hauthority
      exact hself hauthority

theorem holds_of_threads {I : Thread → Prop} (hsame : w'.threadAt thread = w.threadAt thread)
    (h : Holds thread I w) : Holds thread I w' :=
  fun u hu => h u (hsame ▸ hu)

theorem holds_of_removed {I : Thread → Prop} (hnone : w'.threadAt thread = none) :
    Holds thread I w' := by
  intro u hu
  rw [hnone] at hu
  exact absurd hu (by simp)

theorem holds_of_local {I : Thread → Prop} {k : Pubkey} (hlocal : Local k w w')
    (hremoved : w'.threadAt k = none) (h : Holds thread I w) : Holds thread I w' := by
  by_cases hk : thread = k
  · exact holds_of_removed (hk ▸ hremoved)
  · exact holds_of_threads (hlocal.threads thread hk) h

/-- An execution of the thread itself, whatever its callee does. -/
theorem threadExec_succeeds {cpi : Cpi} {a : ExecArgs} {outcome : Outcome}
    (hthread : a.thread = thread) (h : threadExec e cpi a w = .ok (w', outcome))
    (hI : Holds thread (Succeeds t) w) : Holds thread (Succeeds t) w' := by
  subst hthread
  intro u hu
  cases outcome with
  | closePath =>
    obtain ⟨v, ix, called, returned, hv, -, -, -, -, -, hexit⟩ := threadExec_closePath h
    obtain rfl := eq_of_threadAt_exitThread hexit hu
    exact hI u hv
  | fiber s =>
    obtain ⟨x⟩ := threadExec_fiber h
    obtain rfl := x.eq_finished hu
    exact (hI _ x.stored).trans x.finished_succeeds

theorem Activity.succeeds (hsep : Separates e) (haddress : Addressed e thread t)
    (h : Activity e admins signed w w') (habsent : Absent e signed t.authority)
    (hself : thread ∉ signed) (hI : Holds thread (Succeeds t) w) :
    Holds thread (Succeeds t) w' := by
  induction h with
  | refl w => exact hI
  | trans _ _ ih ih' => exact ih' habsent hself (ih habsent hself hI)
  | foreign h => exact holds_of_threads (h.threads thread) hI
  | fiber _ hsigner h =>
    exact holds_of_threads ((FiberProgram.exec_quiet hsigner h).threads thread) hI
  | @instruction _ ix _ _ hsigned h =>
    by_cases hix : ix.thread = thread
    · exact absurd h (process_unauthorized hsep haddress habsent hself hI hsigned hix)
    · exact holds_of_threads ((process_local h).threads thread (Ne.symm hix)) hI
  | close _ h => exact holds_of_local (threadClose_local h) (threadClose_removes h) hI
  | withdraw _ h => exact holds_of_threads ((threadWithdraw_quiet h).threads thread) hI
  | delete _ _ h => exact holds_of_local (threadDelete_local h) (threadDelete_removes h) hI
  | @exec signed cpi a _ _ _ _ _ _ h ih =>
    by_cases hthread : a.thread = thread
    · exact threadExec_succeeds hthread h hI
    · obtain ⟨ix, u, v, returned, hbefore, hcall, hafter⟩ := threadExec_around h
      have hself' : thread ∉ insert a.thread signed := by
        rintro (rfl | hmem)
        · exact hthread rfl
        · exact hself hmem
      have hnested := ih ix u v returned hcall (habsent.insert (threadExec_address h)) hself'
        (holds_of_threads (hbefore.threads thread) hI)
      exact holds_of_threads (hafter.threads thread (Ne.symm hthread)) hnested
  | endOfTransaction w =>
    rcases collect_threadAt w thread with hsame | hnone
    · exact holds_of_threads hsame hI
    · exact holds_of_removed hnone

/-- Any activity created the thread. From then on, as long as neither its authority, which is no
address of a thread, nor the thread itself signs, the thread keeps all but what executions
write, or is gone: executions of it and of other threads, with whatever callees, change neither
its authority nor its fibers, its nonce account or its close instruction. -/
theorem Activity.identity_kept {signed₀ : Set Pubkey} {w₀ : Ledger} (hsep : Separates e)
    (hnone : w₀.threadAt thread = none) (hbefore : Activity e admins signed₀ w₀ w)
    (ht : w.threadAt thread = some t) (hafter : Activity e admins signed w w')
    (habsent : Absent e signed t.authority) (hself : thread ∉ signed) {t' : Thread}
    (ht' : w'.threadAt thread = some t') : Succeeds t t' := by
  obtain ⟨events, hrun⟩ := hbefore.run thread
  have haddress := addressed_of_reachable ⟨w₀, events, hnone, hrun⟩ t ht
  refine hafter.succeeds hsep haddress habsent hself (fun u hu => ?_) t' ht'
  obtain rfl := Option.some.inj (ht.symm.trans hu)
  exact Succeeds.refl t

end Unsigned

theorem payerLedger_threadAt (k : Pubkey) : payerLedger.threadAt k = none := by
  refine threadAt_of_bytes (b := []) ?_
  unfold payerLedger
  split_ifs <;> rfl

theorem threads_sound_sample : ∃ w w' t, createAndExecute = .ok (w, w') ∧
    w'.threadAt 1 = some t ∧ t.fiberIds.Pairwise (· < ·) ∧ StoresClose 1 t := by
  obtain ⟨w, w', h, -, hw'⟩ := createAndExecute_succeeds
  obtain ⟨hcreate, hexec⟩ := createAndExecute_activity h
  obtain ⟨t, ht⟩ := Option.isSome_iff_exists.mp hw'
  have hboth := (hcreate.mono (Set.subset_union_left (t := {9}))).trans
    (hexec.mono (Set.subset_union_right (s := {5, 7})))
  obtain ⟨hsorted, -, hclose, -⟩ := Activity.threads_sound payerLedger_threadAt hboth ht
  exact ⟨w, w', t, h, ht, hsorted, hclose⟩

/-- Thread 1 keeps its identity when its fiber calls the program back. -/
theorem identity_kept_sample : ∃ w w' t t', createAndExecute = .ok (w, w') ∧
    w.threadAt 1 = some t ∧ w'.threadAt 1 = some t' ∧ Succeeds t t' := by
  obtain ⟨w, w', h, hw, hw'⟩ := createAndExecute_succeeds
  obtain ⟨hcreate, hexec⟩ := createAndExecute_activity h
  obtain ⟨t, ht⟩ := Option.isSome_iff_exists.mp hw
  obtain ⟨t', ht'⟩ := Option.isSome_iff_exists.mp hw'
  have hsep : Separates soloEnv := by
    intro a i b a' i' b' k h h'
    simp only [soloEnv, Option.ite_none_right_eq_some] at h h'
    exact h.1.1.trans h'.1.1.symm
  have hauthority : t.authority = 5 := by
    simp only [createAndExecute, bind_eq_ok, pure_eq_ok, Prod.mk.injEq] at h
    obtain ⟨created, hcreated, -, -, rfl, -⟩ := h
    obtain ⟨bump, nonce, schedule, bytes, rfl, -⟩ := threadCreate_stored hcreated ht
    rfl
  have habsent : Absent soloEnv {9} t.authority := by
    rw [hauthority]
    refine ⟨by decide, fun a i b hk => ?_⟩
    simp only [soloEnv, Option.ite_none_right_eq_some, Option.some.injEq] at hk
    exact absurd hk.2 (by decide)
  exact ⟨w, w', t, t', h, ht, ht', Activity.identity_kept hsep (by decide) hcreate ht hexec habsent
    (by decide) ht'⟩

end Antegen.ThreadProgram
