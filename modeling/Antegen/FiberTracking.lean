import Antegen.ThreadRuns

/-!
# The list of indices and the accounts behind it

A thread lists indices, and each should have a live fiber at its derived address.
The thread program is given the index and the fiber program the account. Where the
two agree, and a thread is not created anew over fibers it still has, the list is
right in every ledger of a run and an index leaves the list together with its
account.
-/
namespace Antegen.ThreadProgram

open Transition FiberProgram

/-- An account whose owner and data stay, and which loses no lamports if it is the
fiber program's. -/
def Spared (k : Pubkey) (w w' : Ledger) : Prop :=
  (w' k).owner = (w k).owner ∧ (w' k).data = (w k).data ∧
    ((w k).owner = fiberProgram → (w k).lamports ≤ (w' k).lamports)

namespace Spared

variable {k : Pubkey} {w w₁ w' : Ledger}

theorem refl (k : Pubkey) (w : Ledger) : Spared k w w := ⟨rfl, rfl, fun _ => le_rfl⟩

theorem of_eq (h : w' k = w k) : Spared k w w' := by
  unfold Spared
  rw [h]
  exact ⟨rfl, rfl, fun _ => le_rfl⟩

theorem trans (h : Spared k w w₁) (h' : Spared k w₁ w') : Spared k w w' := by
  refine ⟨h'.1.trans h.1, h'.2.1.trans h.2.1, fun ho => ?_⟩
  have h1 := h.2.2 ho
  have h2 := h'.2.2 (h.1.trans ho)
  omega

/-- The system program moves no lamports out of another program's account. -/
theorem transfer {source target : Pubkey} {amount : ℕ}
    (h : w.transfer source target amount = .ok w') (k : Pubkey) : Spared k w w' := by
  simp only [Ledger.transfer, bind_eq_ok, require_eq_ok, exists_and_left, exists_const,
    pure_eq_ok] at h
  obtain ⟨⟨-, howner⟩, -, -, rfl⟩ := h
  refine ⟨by simp, by simp, fun ho => ?_⟩
  have hne : k ≠ source := by
    intro hk
    rw [hk, howner] at ho
    exact fiberProgram_ne_systemProgram ho.symm
  by_cases ht : k = target
  · subst ht
    simp [hne]
  · simp [hne, ht]

theorem allocate {account : Pubkey} {space : ℕ} (h : w.allocate account space = .ok w')
    (hk : k ≠ account) : Spared k w w' := by
  simp only [Ledger.allocate, bind_eq_ok, require_eq_ok, exists_and_left, exists_const,
    pure_eq_ok] at h
  obtain ⟨-, rfl⟩ := h
  exact of_eq (w.setData_of_ne hk _)

theorem assign {account owner : Pubkey} (h : w.assign account owner = .ok w')
    (hk : k ≠ account) : Spared k w w' := by
  unfold Ledger.assign at h
  split at h
  · rw [← Except.ok.inj h]
    exact refl k w
  · split at h
    · rw [← Except.ok.inj h]
      exact of_eq (w.setOwner_of_ne hk _)
    · exact absurd h (by simp)

theorem writeData {program account : Pubkey} {d : AccountData}
    (h : w.writeData program account d = .ok w') (hk : k ≠ account) : Spared k w w' := by
  rw [(Ledger.writeData_eq_ok h).1]
  exact of_eq (w.setData_of_ne hk _)

theorem exitThread {thread : Pubkey} {t : Thread} (h : w.exitThread thread t = .ok w')
    (hk : k ≠ thread) : Spared k w w' :=
  of_eq (Ledger.exitThread_of_ne h hk)

theorem prefundFiber {e : Env} {thread fiber : Pubkey}
    (h : prefundFiber e w thread fiber = .ok w') (hk : k ≠ thread) : Spared k w w' := by
  obtain ⟨ho, hd, hl⟩ := prefundFiber_eq_ok h k
  exact ⟨ho, hd, fun _ => hl hk⟩

theorem initIfNeeded {e : Env} {payer thread : Pubkey}
    (h : initIfNeeded e w payer thread = .ok w') (hk : k ≠ thread) : Spared k w w' := by
  unfold ThreadProgram.initIfNeeded at h
  split at h
  · simp only [bind_eq_ok] at h
    obtain ⟨w1, h1, w2, h2, h3⟩ := h
    have htop : Spared k w w1 := by
      unfold topUp at h1
      split at h1
      · rw [← Except.ok.inj h1]
        exact refl k w
      · exact transfer h1 k
    exact htop.trans ((allocate h2 hk).trans (assign h3 hk))
  · simp only [bind_eq_ok, require_eq_ok, pure_eq_ok, exists_and_left, exists_const] at h
    obtain ⟨-, -, -, rfl⟩ := h
    exact refl k w

theorem setupNonce {e : Env} {a : ThreadCreateArgs} {nonce : Pubkey}
    (h : setupNonce e a w = .ok (w', nonce)) (hk : a.nonceAccount ≠ some k) : Spared k w w' := by
  unfold ThreadProgram.setupNonce at h
  split at h
  · rw [← (Prod.mk.inj (Except.ok.inj h)).1]
    exact refl k w
  · rename_i n hn
    have hne : k ≠ n := by
      intro he
      exact hk (by rw [hn, he])
    simp only [bind_eq_ok, pure_eq_ok, Prod.mk.injEq, createNonceAccount, require_eq_ok,
      exists_and_left, exists_const] at h
    obtain ⟨recent, -, rent, -, w3, ⟨-, w1, h1, w2, h2, h3⟩, rfl, -⟩ := h
    exact (allocate h1 hne).trans ((transfer h2 k).trans (writeData h3 hne))

end Spared

/-- What the runtime guarantees of the addresses of a thread's fibers. -/
structure Addresses (e : Env) (thread : Pubkey) : Prop where
  injective : ∀ i j, e.pubkey thread i = e.pubkey thread j → i = j
  fresh : ∀ i, e.pubkey thread i ≠ thread
  rent : 0 < e.minimumBalance space

/-- A paid-for fiber of the thread sits at the derived address of the index. -/
def LiveFiber (e : Env) (thread : Pubkey) (w : Ledger) (i : UInt8) : Prop :=
  ∃ f, fiberAt w (e.pubkey thread i) = some f ∧ f.thread = thread ∧
    0 < (w (e.pubkey thread i)).lamports

/-- A derived address is empty, or the fiber program's and paid for if readable. -/
def CleanAt (w : Ledger) (k : Pubkey) : Prop :=
  (w k).data.isEmpty = true ∨
    ((w k).owner = fiberProgram ∧ ∀ f, fiberAt w k = some f → 0 < (w k).lamports)

/-- Every listed index has a live fiber, and the other derived addresses are clean. -/
structure Agrees (e : Env) (thread : Pubkey) (w : Ledger) : Prop where
  live : ∀ t, w.threadAt thread = some t → ∀ i ∈ t.fiberIds, LiveFiber e thread w i
  clean : ∀ i, CleanAt w (e.pubkey thread i)

/-- Exactly the account of the index is closed. -/
def ClosesOnly (k : Pubkey) (w w' : Ledger) : Prop :=
  fiberAt w' k = none ∧ ∀ j, j ≠ k → (fiberAt w j).isSome = true → (fiberAt w' j).isSome = true

section Accounts

variable {e : Env} {thread : Pubkey} {w w' : Ledger}

theorem Spared.fiberAt {k : Pubkey} (h : Spared k w w') : fiberAt w' k = fiberAt w k :=
  fiberAt_congr h.1 h.2.1

theorem Spared.live {i : UInt8} (h : Spared (e.pubkey thread i) w w')
    (hlive : LiveFiber e thread w i) : LiveFiber e thread w' i := by
  obtain ⟨f, hf, hthread, hpos⟩ := hlive
  have hle := h.2.2 (fiberAt_eq_some.mp hf).1
  exact ⟨f, by rw [h.fiberAt, hf], hthread, by omega⟩

theorem Spared.clean {k : Pubkey} (h : Spared k w w') (hclean : CleanAt w k) : CleanAt w' k := by
  rcases hclean with hempty | ⟨howner, hpaid⟩
  · left
    rw [h.2.1]
    exact hempty
  · right
    refine ⟨h.1.trans howner, fun f hf => ?_⟩
    rw [h.fiberAt] at hf
    have hpos := hpaid f hf
    have hle := h.2.2 howner
    omega

theorem readFiber_of_isEmpty {d : AccountData} (h : d.isEmpty = true) (f : Fiber) :
    readFiber d ≠ .ok f := by
  cases d with
  | thread t => simp [AccountData.isEmpty] at h
  | bytes b =>
    have hb : b = [] := by simpa [AccountData.isEmpty] using h
    subst hb
    simp [readFiber, Fiber.tryDeserialize]

/-- A readable account at a clean address is the fiber program's and paid for. -/
theorem CleanAt.readable {k : Pubkey} (hclean : CleanAt w k) {f : Fiber}
    (hf : readFiber (w k).data = .ok f) : (w k).owner = fiberProgram ∧ 0 < (w k).lamports := by
  rcases hclean with hempty | ⟨howner, hpaid⟩
  · exact absurd hf (readFiber_of_isEmpty hempty f)
  · exact ⟨howner, hpaid f (fiberAt_eq_some.mpr ⟨howner, hf⟩)⟩

/-- A fiber stored at a clean derived address is live. -/
theorem Writes.live (ha : Addresses e thread) {i j : UInt8}
    (hw : Writes thread (e.pubkey thread i) w w')
    (ho : Origin e.toEnv thread (e.pubkey thread i) j w w')
    (hclean : CleanAt w (e.pubkey thread i)) : LiveFiber e thread w' i := by
  obtain ⟨f, hf, hthread⟩ := hw.fiber
  have hboth : (w' (e.pubkey thread i)).owner = fiberProgram ∧
      0 < (w (e.pubkey thread i)).lamports := by
    rcases ho with hfresh | hre
    · have hrent := hfresh.rent
      have hpos := ha.rent
      exact ⟨hfresh.after, by omega⟩
    · obtain ⟨g, hg⟩ := hre.read
      obtain ⟨howner, hpos⟩ := hclean.readable hg
      exact ⟨hre.owner.trans howner, hpos⟩
  refine ⟨f, fiberAt_eq_some.mpr ⟨hboth.1, hf⟩, hthread, ?_⟩
  rw [hw.lamports]
  exact hboth.2

/-- Storing a fiber anywhere keeps live fibers live and clean addresses clean. -/
theorem Writes.agrees (ha : Addresses e thread) {k : Pubkey} {j : UInt8}
    (hw : Writes thread k w w') (ho : Origin e.toEnv thread k j w w') {i : UInt8}
    (hclean : CleanAt w (e.pubkey thread i)) :
    (LiveFiber e thread w i → LiveFiber e thread w' i) ∧ CleanAt w' (e.pubkey thread i) := by
  by_cases hk : e.pubkey thread i = k
  · subst hk
    have hlive := Writes.live ha hw ho hclean
    obtain ⟨f, hf, -, hpos⟩ := hlive
    exact ⟨fun _ => Writes.live ha hw ho hclean,
      Or.inr ⟨(fiberAt_eq_some.mp hf).1, fun _ _ => hpos⟩⟩
  · have hspared : Spared (e.pubkey thread i) w w' := Spared.of_eq (hw.frame _ hk)
    exact ⟨hspared.live, hspared.clean hclean⟩

theorem Sweeps.spared {k j : Pubkey} (hw : Sweeps thread k w w') (hj : j ≠ k) :
    Spared j w w' :=
  ⟨hw.owner j, hw.data j hj, fun _ => hw.credited j hj⟩

/-- Closing a readable account leaves its address clean. -/
theorem Sweeps.clean {k : Pubkey} (hw : Sweeps thread k w w') {f : Fiber}
    (hf : readFiber (w k).data = .ok f) {j : Pubkey} (hclean : CleanAt w j) : CleanAt w' j := by
  by_cases hj : j = k
  · subst hj
    obtain ⟨howner, -⟩ := hclean.readable hf
    refine Or.inr ⟨(hw.owner j).trans howner, fun g hg => ?_⟩
    exact absurd (fiberAt_eq_some.mp hg).2 (hw.unreadable g)
  · exact (Sweeps.spared hw hj).clean hclean

theorem Sweeps.closesOnly {k : Pubkey} (hw : Sweeps thread k w w') : ClosesOnly k w w' := by
  constructor
  · rw [Option.eq_none_iff_forall_ne_some]
    intro f hf
    exact hw.unreadable f (fiberAt_eq_some.mp hf).2
  · intro j hj hsome
    rw [(Sweeps.spared hw hj).fiberAt]
    exact hsome

end Accounts

/-! ## Steps -/

/-- An instruction on the thread, the end of a transaction, or a step that leaves the
thread and the accounts of its fibers alone. -/
inductive TrackEvent
  | instruction (ix : Ix)
  | endOfTransaction
  | other

/-- Derived addresses do not sign, so no nonce account is one. -/
def NonceApart (e : Env) (thread : Pubkey) : Ix → Prop
  | .threadCreate a => ∀ i, a.nonceAccount ≠ some (e.pubkey thread i)
  | _ => True

def TrackStep (e : Env) (thread : Pubkey) (w : Ledger) : TrackEvent → Ledger → Prop
  | .instruction ix, w' => ix.thread = thread ∧ NonceApart e thread ix ∧ process e ix w = .ok w'
  | .endOfTransaction, w' => w' = w.collect
  | .other, w' => (w'.threadAt thread = w.threadAt thread ∨ w'.threadAt thread = none) ∧
      ∀ i, Spared (e.pubkey thread i) w w'

/-- The account passed is the one of the index, and a thread is not created anew over
indices it would drop. -/
def Matched (e : Env) (thread : Pubkey) (w : Ledger) : TrackEvent → Prop
  | .instruction (.threadCreate a) =>
      (∀ t, w.threadAt thread = some t → ∀ i ∈ t.fiberIds, a.instruction.isSome = true ∧ i = 0) ∧
      (a.instruction.isSome = true →
        a.fiber = some (e.pubkey thread 0) ∨ LiveFiber e thread w 0)
  | .instruction (.fiberCreate a) =>
      a.fiber = e.pubkey thread a.fiberIndex ∨ LiveFiber e thread w a.fiberIndex
  | .instruction (.fiberClose a) => a.fiber = e.pubkey thread a.fiberIndex
  | .instruction (.fiberSwap a) => a.source = e.pubkey thread a.sourceFiberIndex
  | _ => True

/-- Every index that leaves the list takes exactly its own account with it. -/
def RemovesWithAccount (e : Env) (thread : Pubkey) (w w' : Ledger) : Prop :=
  ∀ t t', w.threadAt thread = some t → w'.threadAt thread = some t' →
    ∀ i ∈ t.fiberIds, i ∉ t'.fiberIds → ClosesOnly (e.pubkey thread i) w w'

section Steps

variable {e : Env} {thread : Pubkey} {w w' : Ledger}

/-- What an instruction owes: the thread it leaves lists live fibers only. -/
theorem agrees_of_exit {u : Ledger} {t' : Thread} (ha : Addresses e thread)
    (hexit : u.exitThread thread t' = .ok w')
    (hlive : ∀ i ∈ t'.fiberIds, LiveFiber e thread u i)
    (hclean : ∀ i, CleanAt u (e.pubkey thread i)) : Agrees e thread w' := by
  have hspared : ∀ i, Spared (e.pubkey thread i) u w' :=
    fun i => Spared.exitThread hexit (ha.fresh i)
  refine ⟨fun t ht i hi => ?_, fun i => (hspared i).clean (hclean i)⟩
  obtain rfl := Ledger.eq_of_threadAt_exitThread hexit ht
  exact (hspared i).live (hlive i hi)

/-- The exit of an instruction changes no fiber account. -/
theorem ClosesOnly.exit {u : Ledger} {k : Pubkey} {t t' : Thread} (h : ClosesOnly k w u)
    (ht : w.threadAt thread = some t) (hk : k ≠ thread)
    (hexit : u.exitThread thread t' = .ok w') : ClosesOnly k w w' := by
  have howner := (Ledger.threadAt_eq_some.mp ht).1
  constructor
  · rw [(Spared.exitThread hexit hk).fiberAt]
    exact h.1
  · intro j hj hsome
    have hne : j ≠ thread := by
      intro he
      obtain ⟨f, hf⟩ := Option.isSome_iff_exists.mp hsome
      have hfiber := (fiberAt_eq_some.mp hf).1
      rw [he, howner] at hfiber
      exact threadProgram_ne_fiberProgram hfiber
    rw [(Spared.exitThread hexit hne).fiberAt]
    exact h.2 j hj hsome

/-- An index that stays in the list is not removed. -/
theorem removes_of_subset {u : Ledger} {t' : Thread} (hexit : u.exitThread thread t' = .ok w')
    (hsub : ∀ t, w.threadAt thread = some t → t.fiberIds ⊆ t'.fiberIds) :
    RemovesWithAccount e thread w w' := by
  intro t t'' ht ht'' i hi hnot
  obtain rfl := Ledger.eq_of_threadAt_exitThread hexit ht''
  exact absurd (hsub t ht hi) hnot

/-- An index that leaves the list through an exit is the one that was closed. -/
theorem removes_of_closesOnly {u : Ledger} {t t' : Thread} {index : UInt8}
    (ha : Addresses e thread) (ht : w.threadAt thread = some t)
    (hexit : u.exitThread thread t' = .ok w')
    (hids : t'.fiberIds = t.fiberIds.filter (· ≠ index))
    (hcloses : ClosesOnly (e.pubkey thread index) w u) : RemovesWithAccount e thread w w' := by
  intro v v' hv hv' i hi hnot
  obtain rfl : v = t := Option.some.inj (hv.symm.trans ht)
  obtain rfl := Ledger.eq_of_threadAt_exitThread hexit hv'
  have hi' : i = index := by
    by_contra hne
    rw [hids] at hnot
    exact hnot (by simp [hi, hne])
  rw [hi']
  exact hcloses.exit ht (ha.fresh index) hexit

/-- A fiber stored for the thread keeps what is live, and makes its own index live if
the account is that of the index. -/
theorem stored_agrees (ha : Addresses e thread) {w₁ u : Ledger} {k : Pubkey} {j : UInt8}
    (hclean : ∀ i, CleanAt w (e.pubkey thread i))
    (hspared : ∀ i, Spared (e.pubkey thread i) w w₁) (hw : Writes thread k w₁ u)
    (ho : Origin e.toEnv thread k j w₁ u) :
    (∀ i, LiveFiber e thread w i → LiveFiber e thread u i) ∧
      (∀ i, CleanAt u (e.pubkey thread i)) ∧
      ∀ i, k = e.pubkey thread i → LiveFiber e thread u i := by
  have hclean₁ : ∀ i, CleanAt w₁ (e.pubkey thread i) := fun i => (hspared i).clean (hclean i)
  refine ⟨fun i hlive => ?_, fun i => ?_, fun i hk => ?_⟩
  · exact (Writes.agrees ha hw ho (hclean₁ i)).1 ((hspared i).live hlive)
  · exact (Writes.agrees ha hw ho (hclean₁ i)).2
  · subst hk
    exact Writes.live ha hw ho (hclean₁ i)

theorem threadCreate_agrees (ha : Addresses e thread) {a : ThreadCreateArgs}
    (hthread : a.thread = thread) (hnonce : ∀ i, a.nonceAccount ≠ some (e.pubkey thread i))
    (hm : Matched e thread w (.instruction (.threadCreate a))) (hI : Agrees e thread w)
    (h : threadCreate e a w = .ok w') :
    Agrees e thread w' ∧ RemovesWithAccount e thread w w' := by
  subst hthread
  simp only [threadCreate, bind_eq_ok, require_eq_ok, exists_and_left, exists_const,
    Prod.exists] at h
  obtain ⟨bump, -, -, w1, h1, w2, nonce, h2, schedule, -, bytes, -, w3, h3, w4, h4, hexit⟩ := h
  have hspared : ∀ i, Spared (e.pubkey a.thread i) w w3 := fun i =>
    (Spared.initIfNeeded h1 (ha.fresh i)).trans
      ((Spared.setupNonce h2 (hnonce i)).trans (Spared.transfer h3 _))
  have hsub : ∀ t, w.threadAt a.thread = some t →
      t.fiberIds ⊆ (createdThread a bump nonce schedule bytes).fiberIds := by
    intro t ht i hi
    obtain ⟨hsome, rfl⟩ := hm.1 t ht i hi
    simp [createdThread, hsome]
  refine ⟨?_, removes_of_subset hexit hsub⟩
  unfold createFirstFiber at h4
  split at h4
  · rename_i hnone
    obtain rfl := Except.ok.inj h4
    refine agrees_of_exit ha hexit (fun i hi => ?_) fun i => (hspared i).clean (hI.clean i)
    simp [createdThread, hnone] at hi
  · rename_i ix hix
    simp only [bind_eq_ok, require_eq_ok, ofOption_eq_ok, exists_and_left, exists_const] at h4
    obtain ⟨-, fiber, hfiber, -, w5, h5, h6⟩ := h4
    obtain ⟨hw, ho⟩ := create_eq_ok h6
    have hspared5 : ∀ i, Spared (e.pubkey a.thread i) w w5 := fun i =>
      (hspared i).trans (Spared.prefundFiber h5 (ha.fresh i))
    obtain ⟨hkeep, hclean, hnew⟩ := stored_agrees ha hI.clean hspared5 hw ho
    refine agrees_of_exit ha hexit (fun i hi => ?_) hclean
    have hi0 : i = 0 := by simpa [createdThread, hix] using hi
    subst hi0
    rcases hm.2 (by rw [hix]; rfl) with haddr | hlive
    · rw [hfiber] at haddr
      exact hnew 0 (Option.some.inj haddr)
    · exact hkeep 0 hlive

theorem threadUpdate_agrees (ha : Addresses e thread) {a : ThreadUpdateArgs}
    (hthread : a.thread = thread) (hI : Agrees e thread w) (h : threadUpdate e a w = .ok w') :
    Agrees e thread w' ∧ RemovesWithAccount e thread w w' := by
  subst hthread
  simp only [threadUpdate, checkSeeds, bind_eq_ok, require_eq_ok, exists_and_left, exists_const,
    Ledger.loadThread_eq_ok] at h
  obtain ⟨t, ht, -, -, t', ht', hexit⟩ := h
  have hids : t'.fiberIds = t.fiberIds := by rw [updatedThread_eq ht']
  refine ⟨agrees_of_exit ha hexit (fun i hi => ?_) hI.clean, removes_of_subset hexit ?_⟩
  · rw [hids] at hi
    exact hI.live t ht i hi
  · intro u hu i hi
    rw [hids, ← Option.some.inj (hu.symm.trans ht)]
    exact hi

/-- A list that may have gained one index, which is live. -/
theorem tracked_agrees (ha : Addresses e thread) {u : Ledger} {t t' : Thread} {index : UInt8}
    (ht : w.threadAt thread = some t) (hI : Agrees e thread w)
    (hkeep : ∀ i, LiveFiber e thread w i → LiveFiber e thread u i)
    (hclean : ∀ i, CleanAt u (e.pubkey thread i)) (hnew : LiveFiber e thread u index)
    (hids : ∀ i, i ∈ t'.fiberIds → i = index ∨ i ∈ t.fiberIds)
    (hsub : t.fiberIds ⊆ t'.fiberIds) (hexit : u.exitThread thread t' = .ok w') :
    Agrees e thread w' ∧ RemovesWithAccount e thread w w' := by
  refine ⟨agrees_of_exit ha hexit (fun i hi => ?_) hclean, removes_of_subset hexit ?_⟩
  · rcases hids i hi with rfl | hold
    · exact hnew
    · exact hkeep i (hI.live t ht i hold)
  · intro v hv
    rw [Option.some.inj (hv.symm.trans ht)]
    exact hsub

theorem fiberCreate_agrees (ha : Addresses e thread) {a : FiberCreateArgs}
    (hthread : a.thread = thread) (hm : Matched e thread w (.instruction (.fiberCreate a)))
    (hI : Agrees e thread w) (h : fiberCreate e a w = .ok w') :
    Agrees e thread w' ∧ RemovesWithAccount e thread w w' := by
  subst hthread
  simp only [fiberCreate, checkSeeds, checkAuthority, bind_eq_ok, require_eq_ok, exists_and_left,
    exists_const, Ledger.loadThread_eq_ok] at h
  obtain ⟨t, ht, -, -, -, w1, h1, w2, h2, hexit⟩ := h
  obtain ⟨hw, ho⟩ := create_eq_ok h2
  obtain ⟨hkeep, hclean, hnew⟩ := stored_agrees ha hI.clean
    (fun i => Spared.prefundFiber h1 (ha.fresh i)) hw ho
  have hindex : LiveFiber e a.thread w2 a.fiberIndex := by
    rcases hm with haddr | hlive
    · exact hnew _ haddr
    · exact hkeep _ hlive
  refine tracked_agrees ha ht hI hkeep hclean hindex (fun i hi => ?_) (fun i hi => ?_) hexit
  · rw [Thread.trackCreated_fiberIds] at hi
    exact Thread.mem_tracked.mp hi
  · rw [Thread.trackCreated_fiberIds]
    exact Thread.mem_tracked.mpr (Or.inr hi)

/-- No condition is needed: the seeds of an update tie the account to the index. -/
theorem fiberUpdate_agrees (ha : Addresses e thread) {a : FiberUpdateArgs}
    (hthread : a.thread = thread) (hI : Agrees e thread w) (h : fiberUpdate e a w = .ok w') :
    Agrees e thread w' ∧ RemovesWithAccount e thread w w' := by
  subst hthread
  simp only [fiberUpdate, checkSeeds, checkAuthority, bind_eq_ok, require_eq_ok, exists_and_left,
    exists_const, Ledger.loadThread_eq_ok] at h
  obtain ⟨t, ht, -, -, -, w1, h1, w2, h2, hexit⟩ := h
  obtain ⟨hseeds, hw, ho⟩ := update_eq_ok h2
  obtain ⟨hkeep, hclean, hnew⟩ := stored_agrees ha hI.clean
    (fun i => Spared.prefundFiber h1 (ha.fresh i)) hw ho
  refine tracked_agrees ha ht hI hkeep hclean (hnew _ hseeds.symm) (fun i hi => ?_)
    (fun i hi => ?_) hexit
  · split at hi
    · rw [Thread.trackUpdated_fiberIds] at hi
      exact Thread.mem_tracked.mp hi
    · exact Or.inr hi
  · split
    · rw [Thread.trackUpdated_fiberIds]
      exact Thread.mem_tracked.mpr (Or.inr hi)
    · exact hi

/-- A list that lost one index, whose account and no other was closed. -/
theorem untracked_agrees (ha : Addresses e thread) {u : Ledger} {t t' : Thread} {index : UInt8}
    (ht : w.threadAt thread = some t) (hI : Agrees e thread w)
    (hkeep : ∀ i, i ≠ index → LiveFiber e thread w i → LiveFiber e thread u i)
    (hclean : ∀ i, CleanAt u (e.pubkey thread i))
    (hids : t'.fiberIds = t.fiberIds.filter (· ≠ index))
    (hcloses : ClosesOnly (e.pubkey thread index) w u)
    (hexit : u.exitThread thread t' = .ok w') :
    Agrees e thread w' ∧ RemovesWithAccount e thread w w' := by
  refine ⟨agrees_of_exit ha hexit (fun i hi => ?_) hclean,
    removes_of_closesOnly ha ht hexit hids hcloses⟩
  rw [hids] at hi
  simp only [List.mem_filter, decide_eq_true_eq] at hi
  exact hkeep i hi.2 (hI.live t ht i hi.1)

theorem fiberClose_agrees (ha : Addresses e thread) {a : FiberCloseArgs}
    (hthread : a.thread = thread) (hm : Matched e thread w (.instruction (.fiberClose a)))
    (hI : Agrees e thread w) (h : fiberClose e a w = .ok w') :
    Agrees e thread w' ∧ RemovesWithAccount e thread w w' := by
  subst hthread
  simp only [fiberClose, checkSeeds, checkAuthority, bind_eq_ok, require_eq_ok, exists_and_left,
    exists_const, Ledger.loadThread_eq_ok] at h
  obtain ⟨t, ht, -, -, -, w1, h1, hexit⟩ := h
  obtain ⟨⟨f, hf, -⟩, hw⟩ := close_eq_ok h1
  have haddr : a.fiber = e.pubkey a.thread a.fiberIndex := hm
  simp only [haddr] at hf hw
  refine untracked_agrees ha ht hI (fun i hi hlive => ?_) (fun i => Sweeps.clean hw hf (hI.clean i))
    (t.untrackClosed_fiberIds a.fiberIndex) (Sweeps.closesOnly hw) hexit
  exact (Sweeps.spared hw fun he => hi (ha.injective _ _ he)).live hlive

theorem fiberSwap_agrees (ha : Addresses e thread) {a : FiberSwapArgs}
    (hthread : a.thread = thread) (hm : Matched e thread w (.instruction (.fiberSwap a)))
    (hI : Agrees e thread w) (h : fiberSwap e a w = .ok w') :
    Agrees e thread w' ∧ RemovesWithAccount e thread w w' := by
  subst hthread
  simp only [fiberSwap, checkSeeds, checkAuthority, bind_eq_ok, require_eq_ok, exists_and_left,
    exists_const, Ledger.loadThread_eq_ok] at h
  obtain ⟨t, ht, -, -, -, w2, h2, hexit⟩ := h
  obtain ⟨source, target, w1, hs, -, -, -, hw, hre, hsw⟩ := swap_eq_ok h2
  have haddr : a.source = e.pubkey a.thread a.sourceFiberIndex := hm
  simp only [haddr] at hs hw hre hsw
  have ho : Origin e.toEnv a.thread a.target 0 w w1 := Or.inr hre
  obtain ⟨hkeep, hclean, -⟩ := stored_agrees ha hI.clean (fun i => Spared.refl _ w) hw ho
  have hread : ∃ f, readFiber (w1 (e.pubkey a.thread a.sourceFiberIndex)).data = .ok f := by
    by_cases hk : e.pubkey a.thread a.sourceFiberIndex = a.target
    · obtain ⟨f, hf, -⟩ := hw.fiber
      exact ⟨f, by rw [hk]; exact hf⟩
    · exact ⟨source, by rw [hw.frame _ hk]; exact hs⟩
  obtain ⟨f, hf⟩ := hread
  have hcloses : ClosesOnly (e.pubkey a.thread a.sourceFiberIndex) w w2 := by
    have hswept := Sweeps.closesOnly hsw
    refine ⟨hswept.1, fun j hj hsome => hswept.2 j hj ?_⟩
    by_cases hk : j = a.target
    · obtain ⟨g, hg⟩ := Option.isSome_iff_exists.mp hsome
      obtain ⟨f', hf', -⟩ := hw.fiber
      have howner : (w1 a.target).owner = fiberProgram := by
        rw [hre.owner, ← hk]
        exact (fiberAt_eq_some.mp hg).1
      rw [hk, fiberAt_eq_some.mpr ⟨howner, hf'⟩]
      rfl
    · rw [fiberAt, hw.frame j hk]
      exact hsome
  refine untracked_agrees ha ht hI (fun i hi hlive => ?_)
    (fun i => Sweeps.clean hsw hf (hclean i)) (t.untrackSwapped_fiberIds a.sourceFiberIndex)
    hcloses hexit
  exact (Sweeps.spared hsw fun he => hi (ha.injective _ _ he)).live (hkeep i hlive)

/-- The step lemma: an instruction on the right account keeps list and accounts in
agreement, and what it removes from the list it closes. -/
theorem process_agrees (ha : Addresses e thread) {ix : Ix} (hthread : ix.thread = thread)
    (hnonce : NonceApart e thread ix) (hm : Matched e thread w (.instruction ix))
    (hI : Agrees e thread w) (h : process e ix w = .ok w') :
    Agrees e thread w' ∧ RemovesWithAccount e thread w w' := by
  cases ix with
  | threadCreate a => exact threadCreate_agrees ha hthread hnonce hm hI h
  | threadUpdate a => exact threadUpdate_agrees ha hthread hI h
  | fiberCreate a => exact fiberCreate_agrees ha hthread hm hI h
  | fiberUpdate a => exact fiberUpdate_agrees ha hthread hI h
  | fiberClose a => exact fiberClose_agrees ha hthread hm hI h
  | fiberSwap a => exact fiberSwap_agrees ha hthread hm hI h

/-- Live fibers are paid for, so the end of a transaction leaves them. -/
theorem collect_agrees (hI : Agrees e thread w) : Agrees e thread w.collect := by
  have hkeep : ∀ k, w.collect k = w k ∨ w.collect k = Account.vacant := by
    intro k
    unfold Ledger.collect
    split
    · exact Or.inr rfl
    · exact Or.inl rfl
  refine ⟨fun t ht i hi => ?_, fun i => ?_⟩
  · have ht' : w.threadAt thread = some t := by
      rcases hkeep thread with hsame | hvacant
      · unfold Ledger.threadAt at ht ⊢
        rw [hsame] at ht
        exact ht
      · unfold Ledger.threadAt at ht
        rw [hvacant] at ht
        exact absurd ht (by simp [Account.vacant])
    have hlive := hI.live t ht' i hi
    obtain ⟨f, -, -, hpos⟩ := hlive
    have hsame : w.collect (e.pubkey thread i) = w (e.pubkey thread i) := by
      unfold Ledger.collect
      rw [if_neg (by omega)]
    exact (Spared.of_eq hsame).live (hI.live t ht' i hi)
  · rcases hkeep (e.pubkey thread i) with hsame | hvacant
    · exact (Spared.of_eq hsame).clean (hI.clean i)
    · left
      rw [hvacant]
      rfl

end Steps

/-- The list of indices over whole runs. As long as every instruction is passed the
account of its index, and none creates the thread anew over indices it would drop,
every listed index has a live fiber at its address, and the next such instruction
closes exactly the accounts of the indices it removes. -/
theorem fibers_agree {e : Env} {thread : Pubkey} (ha : Addresses e thread) {w₀ w : Ledger}
    {events : List TrackEvent} (hnone : w₀.threadAt thread = none)
    (hclean : ∀ i, CleanAt w₀ (e.pubkey thread i))
    (h : Run (Guarded (TrackStep e thread) (Matched e thread)) w₀ events w) :
    (∀ t, w.threadAt thread = some t → ∀ i ∈ t.fiberIds, LiveFiber e thread w i) ∧
      ∀ ix w', Guarded (TrackStep e thread) (Matched e thread) w (.instruction ix) w' →
        RemovesWithAccount e thread w w' := by
  have h₀ : Agrees e thread w₀ := by
    refine ⟨fun t ht => ?_, hclean⟩
    rw [hnone] at ht
    exact absurd ht (by simp)
  have hI : Agrees e thread w := by
    refine h.invariant (fun u ev v hu hstep => ?_) h₀
    obtain ⟨hm, hstep⟩ := hstep
    cases ev with
    | instruction ix =>
      obtain ⟨hthread, hnonce, hp⟩ := hstep
      exact (process_agrees ha hthread hnonce hm hu hp).1
    | endOfTransaction =>
      rw [show v = u.collect from hstep]
      exact collect_agrees hu
    | other =>
      obtain ⟨hsame, hspared⟩ := hstep
      refine ⟨fun t ht i hi => ?_, fun i => (hspared i).clean (hu.clean i)⟩
      rcases hsame with hsame | hgone
      · rw [hsame] at ht
        exact (hspared i).live (hu.live t ht i hi)
      · rw [hgone] at ht
        exact absurd ht (by simp)
  refine ⟨hI.live, fun ix w' hstep => ?_⟩
  obtain ⟨hm, hthread, hnonce, hp⟩ := hstep
  exact (process_agrees ha hthread hnonce hm hI hp).2

/-! ## An index and the account of another -/

theorem sampleEnv_addresses : Addresses sampleEnv 1 where
  injective i j h := (sampleEnv_derivation.injective 1 (Or.inl rfl) 1 (Or.inl rfl) i j h).2
  fresh i := sampleEnv_derivation.fresh 1 (Or.inl rfl) 1 (Or.inl rfl) i
  rent := by decide

theorem payerLedger_clean (k : Pubkey) : CleanAt payerLedger k := by
  left
  unfold payerLedger
  split <;> rfl

def sampleTrigger : Trigger := .interval 10 false 0

/-- Creation of thread 1 with fiber 0, and then of its fiber 1. -/
def setupEvents : List TrackEvent :=
  [.instruction (.threadCreate (sampleCreate sampleTrigger)),
    .instruction (.fiberCreate sampleFiberCreate)]

theorem twoFibers_tracked {w : Ledger} (h : twoFibers sampleTrigger = .ok w) :
    Run (Guarded (TrackStep sampleEnv 1) (Matched sampleEnv 1)) payerLedger setupEvents w := by
  simp only [twoFibers, bind_eq_ok] at h
  obtain ⟨w₁, hcreate, hfiber⟩ := h
  have hfirst : Matched sampleEnv 1 payerLedger
      (.instruction (.threadCreate (sampleCreate sampleTrigger))) := by
    refine ⟨fun t ht => ?_, fun _ => Or.inl rfl⟩
    exact absurd ht (by simp [payerLedger, Ledger.threadAt, Account.vacant])
  have hstep₁ : TrackStep sampleEnv 1 payerLedger
      (.instruction (.threadCreate (sampleCreate sampleTrigger))) w₁ :=
    ⟨rfl, fun i => by simp [sampleCreate], hcreate⟩
  have hstep₂ : TrackStep sampleEnv 1 w₁ (.instruction (.fiberCreate sampleFiberCreate)) w :=
    ⟨rfl, trivial, hfiber⟩
  exact .cons ⟨hfirst, hstep₁⟩ (.cons ⟨Or.inl rfl, hstep₂⟩ (.nil w))

/-- The authority closes index 1 and passes the account of fiber 0. -/
def crossedClose : FiberCloseArgs := ⟨5, 1, sampleEnv.pubkey 1 0, 1⟩

set_option maxRecDepth 20000 in
/-- Fiber 0 is closed while index 0 stays in the list. -/
theorem crossed_close_breaks_list :
    Addresses sampleEnv 1 ∧ payerLedger.threadAt 1 = none ∧
      (∀ i, CleanAt payerLedger (sampleEnv.pubkey 1 i)) ∧
      ¬ ∀ events w, Run (TrackStep sampleEnv 1) payerLedger events w →
        ∀ t, w.threadAt 1 = some t → ∀ i ∈ t.fiberIds, LiveFiber sampleEnv 1 w i := by
  refine ⟨sampleEnv_addresses, rfl, fun i => payerLedger_clean _, fun hall => ?_⟩
  have hrun : (twoFibers sampleTrigger >>= fiberClose sampleEnv crossedClose).map
      (fun w => ((w.threadAt 1).map Thread.fiberIds, fiberAt w (sampleEnv.pubkey 1 0))) =
        .ok (some [0], none) := by
    decide +kernel
  simp only [map_eq_ok, bind_eq_ok, Prod.mk.injEq, Option.map_eq_some_iff] at hrun
  obtain ⟨w', ⟨w, hsetup, hclose⟩, ⟨t, ht, hids⟩, hgone⟩ := hrun
  have hstep : TrackStep sampleEnv 1 w (.instruction (.fiberClose crossedClose)) w' :=
    ⟨rfl, trivial, hclose⟩
  have hsetup' := (twoFibers_tracked hsetup).mono fun _ _ _ hs => hs.2
  have hlive := hall _ w' (hsetup'.append (.cons hstep (.nil w'))) t ht 0 (by rw [hids]; decide)
  obtain ⟨f, hf, -⟩ := hlive
  rw [hgone] at hf
  exact absurd hf (by simp)

set_option maxRecDepth 20000 in
theorem two_fibers_live : ∃ w t,
    Run (Guarded (TrackStep sampleEnv 1) (Matched sampleEnv 1)) payerLedger setupEvents w ∧
      w.threadAt 1 = some t ∧ t.fiberIds = [0, 1] ∧ LiveFiber sampleEnv 1 w 0 ∧
      LiveFiber sampleEnv 1 w 1 := by
  have hrun : (twoFibers sampleTrigger).map (fun w => (w.threadAt 1).map Thread.fiberIds) =
      .ok (some [0, 1]) := by
    decide +kernel
  simp only [map_eq_ok, Option.map_eq_some_iff] at hrun
  obtain ⟨w, hsetup, t, ht, hids⟩ := hrun
  have htracked := twoFibers_tracked hsetup
  have hlive := (fibers_agree sampleEnv_addresses rfl (fun i => payerLedger_clean _) htracked).1 t ht
  exact ⟨w, t, htracked, ht, hids, hlive 0 (by rw [hids]; decide),
    hlive 1 (by rw [hids]; decide)⟩

end Antegen.ThreadProgram
