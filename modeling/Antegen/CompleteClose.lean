import Antegen.ThreadClose

/-!
# A close takes all fibers or none

The loop of `thread_close` looks up the index of every account it is given, closes the
account and drops the index. A closed fiber is not readable a second time, so the loop gets
through exactly the lists that name every fiber of the thread once, in any order. The
lamports go to the thread first and to the destination at the end, with checked additions.
-/
namespace Antegen

namespace FiberProgram

/-- A fiber is bytes. -/
theorem readFiber_bytes {d : AccountData} {f : Fiber} (h : readFiber d = .ok f) :
    ∃ b, d = .bytes b := by
  cases d with
  | bytes b => exact ⟨b, rfl⟩
  | thread t => simp [readFiber] at h

theorem sweepFiberLamports_succeeds {thread k : Pubkey} {w : Ledger} {f : Fiber}
    (hf : fiberAt w k = some f) (hfits : (w thread).lamports + (w k).lamports < 2 ^ 64) :
    ∃ w', sweepFiberLamports w k thread = .ok w' := by
  obtain ⟨howner, hread⟩ := fiberAt_eq_some.mp hf
  obtain ⟨b, hb⟩ := readFiber_bytes hread
  have hraise : w.writeLamports fiberProgram thread ((w thread).lamports + (w k).lamports) =
      .ok (w.setLamports thread ((w thread).lamports + (w k).lamports)) :=
    if_pos (Nat.le_add_right _ _)
  have hdrain : ∀ u : Ledger, (u k).owner = fiberProgram →
      u.writeLamports fiberProgram k 0 = .ok (u.setLamports k 0) := by
    intro u hu
    unfold Ledger.writeLamports
    rw [if_pos hu]
    split_ifs <;> rfl
  have hstore : ∀ u : Ledger, (u k).owner = fiberProgram →
      ∃ w', u.writeData fiberProgram k (.bytes (sweptData b)) = .ok w' := by
    intro u hu
    unfold Ledger.writeData
    rw [if_pos hu]
    split_ifs
    · exact ⟨_, rfl⟩
    · exact ⟨_, rfl⟩
  obtain ⟨w', hw'⟩ := hstore ((w.setLamports thread _).setLamports k 0) (by simpa using howner)
  refine ⟨w', ?_⟩
  simp only [sweepFiberLamports, bind_eq_ok, require_eq_ok, exists_and_left, exists_const]
  refine ⟨hfits, _, hraise, _, hdrain _ (by simpa using howner), ?_⟩
  simp only [Ledger.setLamports_data, hb]
  exact hw'

/-- The fiber program closes what it owns and can read, unless the sum overflows. -/
theorem close_succeeds_iff {thread k : Pubkey} {w : Ledger} :
    (∃ w', close ⟨thread, k⟩ w = .ok w') ↔
      (∃ f, fiberAt w k = some f ∧ f.thread = thread) ∧
        (w thread).lamports + (w k).lamports < 2 ^ 64 := by
  simp only [close, bind_eq_ok, require_eq_ok, exists_and_left, exists_const]
  constructor
  · rintro ⟨w', f, hread, hthread, hsweep⟩
    simp only [sweepFiberLamports, bind_eq_ok, require_eq_ok, exists_and_left, exists_const] at hsweep
    obtain ⟨hfits, w1, h1, w2, h2, h3⟩ := hsweep
    obtain ⟨rfl, -⟩ := Ledger.writeLamports_eq_ok h1
    obtain ⟨rfl, -⟩ := Ledger.writeLamports_eq_ok h2
    obtain ⟨b, hb⟩ := readFiber_bytes hread
    simp only [Ledger.setLamports_data, hb] at h3
    refine ⟨⟨f, fiberAt_eq_some.mpr ⟨?_, hread⟩, hthread⟩, hfits⟩
    rcases (Ledger.writeData_eq_ok h3).2 with hsame | howner
    · -- the tombstone is not a fiber
      simp only [Ledger.setLamports_data, hb, AccountData.bytes.injEq] at hsame
      rw [hb, hsame] at hread
      exact absurd hread (tryDeserialize_sweptData b f)
    · simpa using howner
  · rintro ⟨⟨f, hf, hthread⟩, hfits⟩
    obtain ⟨w', hw'⟩ := sweepFiberLamports_succeeds hf hfits
    exact ⟨w', f, (fiberAt_eq_some.mp hf).2, hthread, hw'⟩

/-- The thread receives what the fiber had. -/
theorem close_lamports {thread k : Pubkey} {w w' : Ledger} (hk : k ≠ thread)
    (h : close ⟨thread, k⟩ w = .ok w') :
    (w' thread).lamports = (w thread).lamports + (w k).lamports := by
  simp only [close, sweepFiberLamports, bind_eq_ok, require_eq_ok, exists_and_left,
    exists_const] at h
  obtain ⟨f, -, -, -, w1, h1, w2, h2, h3⟩ := h
  obtain ⟨rfl, -⟩ := Ledger.writeLamports_eq_ok h1
  obtain ⟨rfl, -⟩ := Ledger.writeLamports_eq_ok h2
  split at h3
  · obtain ⟨rfl, -⟩ := Ledger.writeData_eq_ok h3
    simp [hk.symm]
  · exact absurd h3 (by simp)

/-- The accounts of a list are closed in favour of the thread, and no other is touched. -/
structure SweepsAll (thread : Pubkey) (accounts : List Pubkey) (w w' : Ledger) : Prop where
  frame : ∀ j, j ∉ accounts → j ≠ thread → w' j = w j
  owner : ∀ j, (w' j).owner = (w j).owner
  kept : (w' thread).data = (w thread).data
  collected : (w' thread).lamports =
    (w thread).lamports + (accounts.map fun k => (w k).lamports).sum
  drained : ∀ k ∈ accounts, (w' k).lamports = 0
  unreadable : ∀ k ∈ accounts, ∀ f, readFiber (w' k).data ≠ .ok f

theorem SweepsAll.nil (thread : Pubkey) (w : Ledger) : SweepsAll thread [] w w :=
  ⟨fun _ _ _ => rfl, fun _ => rfl, rfl, rfl, by simp, by simp⟩

/-- One more account is closed first. -/
theorem SweepsAll.cons {thread k : Pubkey} {accounts : List Pubkey} {w u w' : Ledger}
    (hclose : close ⟨thread, k⟩ w = .ok u) (hk : k ≠ thread) (hnew : k ∉ accounts)
    (hthread : thread ∉ accounts) (h : SweepsAll thread accounts u w') :
    SweepsAll thread (k :: accounts) w w' := by
  have hsweep : Sweeps thread k w u := (close_eq_ok hclose).2
  have hrest : ∀ j ∈ accounts, u j = w j := fun j hj =>
    hsweep.frame j (fun heq => hnew (heq ▸ hj)) fun heq => hthread (heq ▸ hj)
  have hlast : w' k = u k := h.frame k hnew hk
  refine ⟨fun j hj hne => ?_, fun j => (h.owner j).trans (hsweep.owner j),
    h.kept.trans (hsweep.data thread hk.symm), ?_, fun j hj => ?_, fun j hj => ?_⟩
  · rw [List.mem_cons, not_or] at hj
    exact (h.frame j hj.2 hne).trans (hsweep.frame j hj.1 hne)
  · have hsum : (accounts.map fun k => (u k).lamports) = accounts.map fun k => (w k).lamports :=
      List.map_congr_left fun j hj => by rw [hrest j hj]
    rw [h.collected, close_lamports hk hclose, hsum, List.map_cons, List.sum_cons, Nat.add_assoc]
  · rcases List.mem_cons.mp hj with rfl | hj
    · rw [hlast]
      exact hsweep.drained
    · exact h.drained j hj
  · rcases List.mem_cons.mp hj with rfl | hj
    · rw [hlast]
      exact hsweep.unreadable
    · exact h.unreadable j hj

end FiberProgram

namespace ThreadProgram

/-- The index that is found stands for its account. -/
theorem eraseIdx_perm {e : Env} {thread account : Pubkey} {ids : List UInt8} {pos : ℕ}
    (h : (ids.findIdx? fun i => e.pubkey thread i = account) = some pos) :
    (ids.map (e.pubkey thread)).Perm (account :: (ids.eraseIdx pos).map (e.pubkey thread)) := by
  obtain ⟨hlt, hfound, -⟩ := List.findIdx?_eq_some_iff_getElem.mp h
  have hperm := (List.getElem_cons_eraseIdx_perm hlt).map (e.pubkey thread)
  rw [List.map_cons, of_decide_eq_true hfound] at hperm
  exact hperm.symm

/-- The accounts name every fiber of the list of indices once, and each is live. -/
structure NamesAll (e : Env) (a : ThreadCloseArgs) (accounts : List Pubkey) (ids : List UInt8)
    (w : Ledger) : Prop where
  perm : accounts.Perm (ids.map (e.pubkey a.thread))
  nodup : accounts.Nodup
  live : ∀ k ∈ accounts, ∃ f, FiberProgram.fiberAt w k = some f ∧ f.thread = a.thread
  program : ids ≠ [] → a.fiberProgram.isSome

/-- One pass of the loop. -/
theorem closeRemaining_eq_ok {e : Env} {a : ThreadCloseArgs} {ids ids' : List UInt8}
    {w w' : Ledger} {account : Pubkey} :
    closeRemaining e a (ids, w) account = .ok (ids', w') ↔
      ∃ pos, (ids.findIdx? fun i => e.pubkey a.thread i = account) = some pos ∧
        ids' = ids.eraseIdx pos ∧ a.fiberProgram.isSome ∧
        FiberProgram.close ⟨a.thread, account⟩ w = .ok w' := by
  simp only [closeRemaining, bind_eq_ok, require_eq_ok, exists_and_left, exists_const, pure_eq_ok,
    ofOption_eq_ok, Prod.mk.injEq]
  constructor
  · rintro ⟨f, -, -, pos, hpos, program, hprogram, u, hclose, rfl, rfl⟩
    exact ⟨pos, hpos, rfl, by rw [hprogram]; rfl, hclose⟩
  · rintro ⟨pos, hpos, rfl, hprogram, hclose⟩
    obtain ⟨⟨f, hread, hthread⟩, -⟩ := FiberProgram.close_eq_ok hclose
    obtain ⟨program, hprogram⟩ := Option.isSome_iff_exists.mp hprogram
    exact ⟨f, hread, hthread, pos, hpos, program, hprogram, w', hclose, rfl, rfl⟩

/-- No fiber is at the address of a thread. -/
theorem ne_thread_of_fiberAt {w : Ledger} {thread k : Pubkey} {t : Thread} {f : Fiber}
    (ht : (w thread).data = .thread t) (hf : FiberProgram.fiberAt w k = some f) : k ≠ thread := by
  rintro rfl
  have hread := (FiberProgram.fiberAt_eq_some.mp hf).2
  rw [ht] at hread
  simp [FiberProgram.readFiber] at hread

/-- Closing one fiber leaves the others as they are. -/
theorem fiberAt_of_close {w u : Ledger} {thread k j : Pubkey}
    (hclose : FiberProgram.close ⟨thread, k⟩ w = .ok u) (hj : j ≠ k) :
    FiberProgram.fiberAt u j = FiberProgram.fiberAt w j := by
  have hsweep : FiberProgram.Sweeps thread k w u := (FiberProgram.close_eq_ok hclose).2
  unfold FiberProgram.fiberAt
  rw [hsweep.owner j, hsweep.data j hj]

/-- The run lemma: a loop that uses up the indices was given every fiber once. -/
theorem namesAll_of_foldlM {e : Env} {a : ThreadCloseArgs} {t : Thread} {accounts : List Pubkey}
    {ids : List UInt8} {w w' : Ledger} (ht : (w a.thread).data = .thread t)
    (h : accounts.foldlM (closeRemaining e a) (ids, w) = .ok ([], w')) :
    NamesAll e a accounts ids w ∧ FiberProgram.SweepsAll a.thread accounts w w' := by
  induction accounts generalizing ids w with
  | nil =>
    obtain ⟨rfl, rfl⟩ := Prod.mk.inj (Except.ok.inj h)
    exact ⟨⟨List.Perm.nil, List.nodup_nil, by simp, by simp⟩, .nil _ _⟩
  | cons k accounts ih =>
    rw [List.foldlM_cons, bind_eq_ok] at h
    obtain ⟨⟨ids', u⟩, hstep, hrest⟩ := h
    obtain ⟨pos, hpos, rfl, hprogram, hclose⟩ := closeRemaining_eq_ok.mp hstep
    obtain ⟨⟨f, hf, hthread⟩, -⟩ := FiberProgram.close_succeeds_iff.mp ⟨u, hclose⟩
    have hk : k ≠ a.thread := ne_thread_of_fiberAt ht hf
    have hsweep : FiberProgram.Sweeps a.thread k w u := (FiberProgram.close_eq_ok hclose).2
    have ht' : (u a.thread).data = .thread t := (hsweep.data a.thread hk.symm).trans ht
    obtain ⟨hnames, hall⟩ := ih ht' hrest
    -- a closed fiber is not readable again
    have hnew : k ∉ accounts := by
      intro hmem
      obtain ⟨g, hg, -⟩ := hnames.live k hmem
      exact hsweep.unreadable g (FiberProgram.fiberAt_eq_some.mp hg).2
    have hself : a.thread ∉ accounts := by
      intro hmem
      obtain ⟨g, hg, -⟩ := hnames.live _ hmem
      exact ne_thread_of_fiberAt ht' hg rfl
    refine ⟨⟨(hnames.perm.cons k).trans (eraseIdx_perm hpos).symm,
      List.nodup_cons.mpr ⟨hnew, hnames.nodup⟩, fun j hj => ?_, fun _ => hprogram⟩,
      .cons hclose hk hnew hself hall⟩
    rcases List.mem_cons.mp hj with rfl | hj
    · exact ⟨f, hf, hthread⟩
    · have hne : j ≠ k := fun heq => hnew (heq ▸ hj)
      rw [← fiberAt_of_close hclose hne]
      exact hnames.live j hj

/-- Every such list gets through, if the lamports fit. -/
theorem foldlM_of_namesAll {e : Env} {a : ThreadCloseArgs} {t : Thread} {accounts : List Pubkey}
    {ids : List UInt8} {w : Ledger} (ht : (w a.thread).data = .thread t)
    (hnames : NamesAll e a accounts ids w)
    (hfits : (w a.thread).lamports + (accounts.map fun k => (w k).lamports).sum < 2 ^ 64) :
    ∃ w', accounts.foldlM (closeRemaining e a) (ids, w) = .ok ([], w') := by
  induction accounts generalizing ids w with
  | nil =>
    have hids : ids = [] := by simpa using hnames.perm
    subst hids
    exact ⟨w, rfl⟩
  | cons k accounts ih =>
    have hmem : k ∈ ids.map (e.pubkey a.thread) := hnames.perm.mem_iff.mp List.mem_cons_self
    obtain ⟨i, hi, hik⟩ := List.mem_map.mp hmem
    have hsome : (ids.findIdx? fun i => e.pubkey a.thread i = k).isSome := by
      rw [List.findIdx?_isSome, List.any_eq_true]
      exact ⟨i, hi, decide_eq_true hik⟩
    obtain ⟨pos, hpos⟩ := Option.isSome_iff_exists.mp hsome
    obtain ⟨f, hf, hthread⟩ := hnames.live k List.mem_cons_self
    have hk : k ≠ a.thread := ne_thread_of_fiberAt ht hf
    rw [List.map_cons, List.sum_cons] at hfits
    obtain ⟨u, hclose⟩ := FiberProgram.close_succeeds_iff.mpr
      ⟨⟨f, hf, hthread⟩, show (w a.thread).lamports + (w k).lamports < 2 ^ 64 by omega⟩
    have hsweep : FiberProgram.Sweeps a.thread k w u := (FiberProgram.close_eq_ok hclose).2
    have ht' : (u a.thread).data = .thread t := (hsweep.data a.thread hk.symm).trans ht
    obtain ⟨hnew, hnodup⟩ := List.nodup_cons.mp hnames.nodup
    have hlive : ∀ j ∈ accounts, ∃ f, FiberProgram.fiberAt u j = some f ∧ f.thread = a.thread := by
      intro j hj
      rw [fiberAt_of_close hclose fun heq => hnew (heq ▸ hj)]
      exact hnames.live j (List.mem_cons_of_mem k hj)
    have hrest : ∀ j ∈ accounts, u j = w j := by
      intro j hj
      obtain ⟨g, hg, -⟩ := hlive j hj
      exact hsweep.frame j (fun heq => hnew (heq ▸ hj)) (ne_thread_of_fiberAt ht' hg)
    have hsum : (accounts.map fun k => (u k).lamports) = accounts.map fun k => (w k).lamports :=
      List.map_congr_left fun j hj => by rw [hrest j hj]
    have hprogram : a.fiberProgram.isSome := hnames.program (List.ne_nil_of_mem hi)
    have hleft : NamesAll e a accounts (ids.eraseIdx pos) u :=
      ⟨List.Perm.cons_inv (hnames.perm.trans (eraseIdx_perm hpos)), hnodup, hlive,
        fun _ => hprogram⟩
    have hfits' : (u a.thread).lamports + (accounts.map fun k => (u k).lamports).sum < 2 ^ 64 := by
      rw [hsum, FiberProgram.close_lamports hk hclose]
      omega
    obtain ⟨w', hw'⟩ := ih ht' hleft hfits'
    refine ⟨w', ?_⟩
    rw [List.foldlM_cons, bind_eq_ok]
    exact ⟨_, closeRemaining_eq_ok.mpr ⟨pos, hpos, rfl, hprogram, hclose⟩, hw'⟩

/-- The address of a thread is derived from its own fields. -/
theorem address_of_reachable {e : Env} {thread : Pubkey} {w : Ledger} (h : Reachable e thread w) :
    Holds thread (fun t => e.threadAddress t.authority t.id t.bump = some thread) w := by
  refine h.holds (fun u ix u' t' hp hix ht' hu => ?_) fun cpi a u u' s x _ _ hx => ?_
  · subst hix
    rcases process_cases hp ht' with ⟨a, -, -, -, -, rfl, -, -, -⟩ | ⟨a, t, -, ht, hupdate⟩ |
      ⟨t, ht, hframe⟩
    · simp only [process, threadCreate, bind_eq_ok, require_eq_ok, exists_and_left, exists_const,
        Prod.exists] at hp
      obtain ⟨bump, -, haddress, w1, -, w2, nonce, -, schedule, -, bytes, -, w3, -, w4, -, hexit⟩ :=
        hp
      rw [Ledger.eq_of_threadAt_exitThread hexit ht']
      exact haddress
    · rw [updatedThread_eq hupdate]
      exact hu t ht
    · rw [hframe]
      exact hu t ht
  · obtain ⟨hauthority, hid, hbump, -⟩ := x.finished_frame
    rw [hauthority, hid, hbump]
    exact hx

/-- All lamports of the destination, the thread and the accounts that are closed. -/
def lamportsOf (w : Ledger) (a : ThreadCloseArgs) (accounts : List Pubkey) : ℕ :=
  (w a.closeTo).lamports + (w a.thread).lamports + (accounts.map fun k => (w k).lamports).sum

/-- The constraints on the accounts of `thread_close`. -/
structure CloseAccounts (a : ThreadCloseArgs) (t : Thread) (w : Ledger) : Prop where
  authority : a.authority = t.authority ∨ a.authority = a.thread
  closeTo : (w a.closeTo).owner = systemProgram
  program : a.fiberProgram.all (· = fiberProgram) = true

theorem threadClose_eq_ok {e : Env} {a : ThreadCloseArgs} {w w' : Ledger} {t : Thread}
    (hreach : Reachable e a.thread w) (ht : w.threadAt a.thread = some t)
    (haccounts : CloseAccounts a t w) :
    threadClose e a w = .ok w' ↔
      ∃ u, a.remainingAccounts.foldlM (closeRemaining e a) (t.fiberIds, w) = .ok ([], u) ∧
        closeAccount u a.thread a.closeTo = .ok w' := by
  have hne : a.thread ≠ a.closeTo := by
    intro heq
    have howner := (Ledger.threadAt_eq_some.mp ht).1
    rw [heq, haccounts.closeTo] at howner
    exact threadProgram_ne_systemProgram howner.symm
  have hload : w.loadThread a.thread = .ok t := Ledger.loadThread_eq_ok.mpr ht
  simp only [threadClose, hload, checkAuthority, checkSeeds, bind_eq_ok, require_eq_ok,
    exists_and_left, exists_const, Except.ok.injEq, exists_eq_left', haccounts.closeTo,
    haccounts.program, haccounts.authority, address_of_reachable hreach t ht, hne, ne_eq,
    not_false_eq_true, true_and, Prod.exists]
  constructor
  · rintro ⟨ids, u, hfold, rfl, hclose⟩
    exact ⟨u, hfold, hclose⟩
  · rintro ⟨u, hfold, hclose⟩
    exact ⟨[], u, hfold, rfl, hclose⟩

/-- The destination is neither the thread nor one of the fibers. -/
theorem CloseAccounts.untouched {e : Env} {a : ThreadCloseArgs} {t : Thread} {w u : Ledger}
    (haccounts : CloseAccounts a t w) (ht : w.threadAt a.thread = some t)
    (hnames : NamesAll e a a.remainingAccounts t.fiberIds w)
    (hall : FiberProgram.SweepsAll a.thread a.remainingAccounts w u) :
    a.closeTo ≠ a.thread ∧ u a.closeTo = w a.closeTo := by
  have hne : a.closeTo ≠ a.thread := by
    intro heq
    have howner := (Ledger.threadAt_eq_some.mp ht).1
    rw [← heq, haccounts.closeTo] at howner
    exact threadProgram_ne_systemProgram howner.symm
  refine ⟨hne, hall.frame _ (fun hmem => ?_) hne⟩
  obtain ⟨f, hf, -⟩ := hnames.live _ hmem
  have howner := (FiberProgram.fiberAt_eq_some.mp hf).1
  rw [haccounts.closeTo] at howner
  exact fiberProgram_ne_systemProgram howner.symm

theorem closeAccount_succeeds_iff {w : Ledger} {account destination : Pubkey} :
    (∃ w', closeAccount w account destination = .ok w') ↔
      (w destination).lamports + (w account).lamports < 2 ^ 64 := by
  simp only [closeAccount, bind_eq_ok, checkU64_eq_ok, pure_eq_ok]
  constructor
  · rintro ⟨w', total, ⟨hfits, -⟩, -⟩
    exact hfits
  · intro hfits
    exact ⟨_, _, ⟨hfits, rfl⟩, rfl⟩

theorem threadClose_succeeds_iff {e : Env} {a : ThreadCloseArgs} {w : Ledger} {t : Thread}
    (hreach : Reachable e a.thread w) (ht : w.threadAt a.thread = some t)
    (haccounts : CloseAccounts a t w) :
    (∃ w', threadClose e a w = .ok w') ↔
      NamesAll e a a.remainingAccounts t.fiberIds w ∧
        lamportsOf w a a.remainingAccounts < 2 ^ 64 := by
  have hdata := (Ledger.threadAt_eq_some.mp ht).2
  simp only [threadClose_eq_ok hreach ht haccounts, lamportsOf]
  constructor
  · rintro ⟨w', u, hfold, hclose⟩
    obtain ⟨hnames, hall⟩ := namesAll_of_foldlM hdata hfold
    have hsum := closeAccount_succeeds_iff.mp ⟨w', hclose⟩
    rw [(haccounts.untouched ht hnames hall).2, hall.collected] at hsum
    exact ⟨hnames, by omega⟩
  · rintro ⟨hnames, hfits⟩
    obtain ⟨u, hfold⟩ := foldlM_of_namesAll hdata hnames (by omega)
    have hall := (namesAll_of_foldlM hdata hfold).2
    have hsum : (u a.closeTo).lamports + (u a.thread).lamports < 2 ^ 64 := by
      rw [(haccounts.untouched ht hnames hall).2, hall.collected]
      omega
    obtain ⟨w', hclose⟩ := closeAccount_succeeds_iff.mpr hsum
    exact ⟨w', u, hfold, hclose⟩

/-- What a close leaves: no thread, no fiber, and all lamports at the destination. -/
structure ClosedAll (e : Env) (a : ThreadCloseArgs) (t : Thread) (w w' : Ledger) : Prop where
  thread : w'.isClosed a.thread = true ∧ (w' a.thread).lamports = 0
  fibers : ∀ i ∈ t.fiberIds, (w' (e.pubkey a.thread i)).lamports = 0 ∧
    FiberProgram.fiberAt w' (e.pubkey a.thread i) = none
  received : (w' a.closeTo).lamports = lamportsOf w a (t.fiberIds.map (e.pubkey a.thread))

theorem threadClose_closedAll {e : Env} {a : ThreadCloseArgs} {w w' : Ledger} {t : Thread}
    (hreach : Reachable e a.thread w) (ht : w.threadAt a.thread = some t)
    (haccounts : CloseAccounts a t w) (h : threadClose e a w = .ok w') : ClosedAll e a t w w' := by
  have hclosed := threadClose_isClosed h
  obtain ⟨u, hfold, hclose⟩ := (threadClose_eq_ok hreach ht haccounts).mp h
  have hdata := (Ledger.threadAt_eq_some.mp ht).2
  obtain ⟨hnames, hall⟩ := namesAll_of_foldlM hdata hfold
  obtain ⟨hne, hdest⟩ := haccounts.untouched ht hnames hall
  simp only [closeAccount, bind_eq_ok, checkU64_eq_ok, pure_eq_ok] at hclose
  obtain ⟨total, ⟨-, rfl⟩, hw'⟩ := hclose
  refine ⟨⟨hclosed, by rw [← hw']; simp⟩, fun i hi => ?_, ?_⟩
  · have hmem : e.pubkey a.thread i ∈ a.remainingAccounts :=
      hnames.perm.mem_iff.mpr (List.mem_map_of_mem hi)
    obtain ⟨f, hf, -⟩ := hnames.live _ hmem
    have hthread := ne_thread_of_fiberAt hdata hf
    have hcloseTo : e.pubkey a.thread i ≠ a.closeTo := by
      intro heq
      have howner := (FiberProgram.fiberAt_eq_some.mp hf).1
      rw [heq, haccounts.closeTo] at howner
      exact fiberProgram_ne_systemProgram howner.symm
    have hsame : w' (e.pubkey a.thread i) = u (e.pubkey a.thread i) := by
      rw [← hw', Ledger.setData_of_ne _ hthread, Ledger.setOwner_of_ne _ hthread,
        Ledger.setLamports_of_ne _ hthread, Ledger.setLamports_of_ne _ hcloseTo]
    refine ⟨by rw [hsame]; exact hall.drained _ hmem, ?_⟩
    rw [Option.eq_none_iff_forall_ne_some]
    intro g hg
    have hread := (FiberProgram.fiberAt_eq_some.mp hg).2
    rw [hsame] at hread
    exact hall.unreadable _ hmem g hread
  · have hsum : (a.remainingAccounts.map fun k => (w k).lamports).sum =
        ((t.fiberIds.map (e.pubkey a.thread)).map fun k => (w k).lamports).sum :=
      (hnames.perm.map _).sum_eq
    rw [← hw']
    simp only [Ledger.setData_lamports, Ledger.setOwner_lamports, Ledger.setLamports_lamports,
      if_neg hne, if_true, hdest, hall.collected, lamportsOf, hsum]
    omega

/-- `thread_close` succeeds exactly if it is given every fiber of the thread once, all of
them live, and the lamports fit; then all fibers are closed and the destination has
everything. The close path of an execution gives it such a list if the fibers are live. -/
theorem thread_close_complete {e : Env} {thread : Pubkey} {w : Ledger} {t : Thread}
    (hreach : Reachable e thread w) (ht : w.threadAt thread = some t) :
    (∀ a : ThreadCloseArgs, a.thread = thread → CloseAccounts a t w →
      ((∃ w', threadClose e a w = .ok w') ↔
        NamesAll e a a.remainingAccounts t.fiberIds w ∧
          lamportsOf w a a.remainingAccounts < 2 ^ 64) ∧
      ∀ w', threadClose e a w = .ok w' → ClosedAll e a t w w') ∧
    (Function.Injective (e.pubkey thread) →
      (∀ i ∈ t.fiberIds, ∃ f, FiberProgram.fiberAt w (e.pubkey thread i) = some f ∧
        f.thread = thread) →
      ∃ ix a, closeInstruction e thread t = .ok ix ∧ closeArgs ix = some a ∧
        a.thread = thread ∧ a.authority = thread ∧
        NamesAll e a a.remainingAccounts t.fiberIds w) := by
  constructor
  · rintro a rfl haccounts
    exact ⟨threadClose_succeeds_iff hreach ht haccounts,
      fun w' h => threadClose_closedAll hreach ht haccounts h⟩
  · intro hinj hlive
    obtain ⟨ix, authority, hix, hargs⟩ :=
      closeInstruction_succeeds (storesClose_of_reachable hreach t ht) e
    have hnodup : t.fiberIds.Nodup :=
      (sorted_of_reachable hreach t ht).imp UInt8.ne_of_lt
    refine ⟨ix, _, hix, hargs, rfl, rfl, List.Perm.refl _, hnodup.map hinj, fun k hk => ?_,
      fun _ => rfl⟩
    obtain ⟨i, hi, rfl⟩ := List.mem_map.mp hk
    exact hlive i hi

/-- The payer's ledger, with lamports for the authority 5. -/
def authorityLedger (lamports : ℕ) : Ledger := fun k =>
  if k = 5 then ⟨lamports, systemProgram, .bytes []⟩ else payerLedger k

def closingLedger (w : Ledger) : Result Ledger := do
  let w ← threadCreate sampleEnv (sampleCreate (.interval 10 false 0)) w
  fiberCreate sampleEnv sampleFiberCreate w

/-- Authority 5 closes thread 1 with its fibers, the second one first. -/
def sampleClose : ThreadCloseArgs :=
  ⟨5, 5, 1, some fiberProgram, [sampleEnv.pubkey 1 1, sampleEnv.pubkey 1 0]⟩

/-- A reachable thread with two live fibers, and what its close needs. -/
structure ClosesSample (lamports : ℕ) (w : Ledger) (t : Thread) : Prop where
  reachable : Reachable sampleEnv 1 w
  stored : w.threadAt 1 = some t
  accounts : CloseAccounts sampleClose t w
  tracked : t.fiberIds = [0, 1]
  live : ∀ i ∈ t.fiberIds, ∃ f, FiberProgram.fiberAt w (sampleEnv.pubkey 1 i) = some f ∧
    f.thread = 1
  total : lamportsOf w sampleClose sampleClose.remainingAccounts = lamports + 108908800

theorem ClosesSample.names {lamports : ℕ} {w : Ledger} {t : Thread}
    (h : ClosesSample lamports w t) :
    NamesAll sampleEnv sampleClose sampleClose.remainingAccounts t.fiberIds w := by
  have hperm : sampleClose.remainingAccounts.Perm (t.fiberIds.map (sampleEnv.pubkey 1)) := by
    rw [h.tracked]
    exact List.Perm.swap _ _ _
  refine ⟨hperm, by decide, fun k hk => ?_, fun _ => rfl⟩
  obtain ⟨i, hi, rfl⟩ := List.mem_map.mp (hperm.mem_iff.mp hk)
  exact h.live i hi

theorem closesSample_of_created {lamports : ℕ}
    (h : (closingLedger (authorityLedger lamports)).map (fun w =>
      ((w.threadAt 1).map fun t => (t.authority, t.fiberIds),
        (FiberProgram.fiberAt w (sampleEnv.pubkey 1 0)).map Fiber.thread,
        (FiberProgram.fiberAt w (sampleEnv.pubkey 1 1)).map Fiber.thread, (w 5).owner,
        lamportsOf w sampleClose sampleClose.remainingAccounts)) =
      .ok (some (5, [0, 1]), some 1, some 1, systemProgram, lamports + 108908800)) :
    ∃ w t, ClosesSample lamports w t := by
  simp only [map_eq_ok, Prod.mk.injEq, closingLedger, bind_eq_ok] at h
  obtain ⟨w, ⟨u, hcreate, hsecond⟩, hthread, hfirst, hadded, howner, htotal⟩ := h
  obtain ⟨t, ht, hfields⟩ := Option.map_eq_some_iff.mp hthread
  obtain ⟨hauthority, hids⟩ := Prod.mk.inj hfields
  obtain ⟨w₀, events, hnone, hrun⟩ := threadCreate_reachable rfl hcreate
  have hstep : Step sampleEnv 1 u (.instruction (.fiberCreate sampleFiberCreate)) w := ⟨rfl, hsecond⟩
  have hreach : Reachable sampleEnv 1 w := ⟨w₀, _, hnone, hrun.append (.cons hstep (.nil w))⟩
  refine ⟨w, t, hreach, ht, ⟨Or.inl hauthority.symm, howner, by decide⟩, hids, ?_, htotal⟩
  rw [hids]
  exact List.forall_mem_cons.mpr ⟨Option.map_eq_some_iff.mp hfirst,
    List.forall_mem_singleton.mpr (Option.map_eq_some_iff.mp hadded)⟩

set_option maxRecDepth 20000 in
theorem closes_evaluated :
    (∃ w t, ClosesSample 0 w t) ∧ ∃ w t, ClosesSample (2 ^ 64 - 1) w t :=
  ⟨closesSample_of_created (by decide +kernel), closesSample_of_created (by decide +kernel)⟩

theorem samplePubkey_injective : Function.Injective (sampleEnv.pubkey 1) := fun i j heq =>
  (FiberProgram.sampleEnv_derivation.injective 1 (Or.inl rfl) 1 (Or.inl rfl) i j heq).2

/-- The right list, and a destination that cannot take the lamports. -/
theorem overflowing_close_fails :
    ∃ w t, Reachable sampleEnv 1 w ∧ w.threadAt 1 = some t ∧ CloseAccounts sampleClose t w ∧
      NamesAll sampleEnv sampleClose sampleClose.remainingAccounts t.fiberIds w ∧
      ¬ ∃ w', threadClose sampleEnv sampleClose w = .ok w' := by
  obtain ⟨-, w, t, h⟩ := closes_evaluated
  refine ⟨w, t, h.reachable, h.stored, h.accounts, h.names, fun hclose => ?_⟩
  have hfits := ((threadClose_succeeds_iff h.reachable h.stored h.accounts).mp hclose).2
  rw [h.total] at hfits
  omega

/-- Two fibers are closed in the order they are given, and the close path lists them. -/
theorem complete_close_succeeds :
    ∃ w t, Reachable sampleEnv 1 w ∧ w.threadAt 1 = some t ∧ t.fiberIds = [0, 1] ∧
      (∃ w', threadClose sampleEnv sampleClose w = .ok w' ∧ ClosedAll sampleEnv sampleClose t w w') ∧
      ∃ ix a, closeInstruction sampleEnv 1 t = .ok ix ∧ closeArgs ix = some a ∧
        a.thread = 1 ∧ a.authority = 1 ∧ NamesAll sampleEnv a a.remainingAccounts t.fiberIds w := by
  obtain ⟨⟨w, t, h⟩, -⟩ := closes_evaluated
  obtain ⟨hcloses, hpath⟩ := thread_close_complete h.reachable h.stored
  obtain ⟨hiff, hclosed⟩ := hcloses sampleClose rfl h.accounts
  obtain ⟨w', hw'⟩ := hiff.mpr ⟨h.names, by rw [h.total]; decide⟩
  exact ⟨w, t, h.reachable, h.stored, h.tracked, ⟨w', hw', hclosed w' hw'⟩,
    hpath samplePubkey_injective h.live⟩

end ThreadProgram

end Antegen
