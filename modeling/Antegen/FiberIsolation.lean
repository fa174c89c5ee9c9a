import Antegen.FiberProgram
import Antegen.Transition

/-!
# Isolation of fibers between threads

The system runs the four instructions of the fiber program, each signed by some
thread, between arbitrary steps of other programs and ends of transactions. A
ledger is isolated if every live fiber sits at the derived address of the thread it
stores. Creation over an initialised account is the one step that neither derives
the address nor compares the stored thread.
-/
namespace Antegen.FiberProgram

open Transition

/-- An instruction of the fiber program with its accounts and arguments. -/
inductive Ix
  | create (a : CreateArgs)
  | update (a : UpdateArgs)
  | close (a : CloseArgs)
  | swap (a : SwapArgs)

def Ix.signer : Ix → Pubkey
  | create a => a.thread
  | update a => a.thread
  | close a => a.thread
  | swap a => a.thread

def exec (e : Env) : Ix → Ledger → Result Ledger
  | .create a => create e a
  | .update a => update e a
  | .close a => close a
  | .swap a => swap a

/-- Steps of other programs: accounts of this one keep owner and data, and an
account newly assigned to it holds zeros, as the runtime demands. -/
def Foreign (w w' : Ledger) : Prop :=
  ∀ k, ((w k).owner = fiberProgram → (w' k).owner = fiberProgram ∧ (w' k).data = (w k).data ∧
      (w k).lamports ≤ (w' k).lamports) ∧
    ((w k).owner ≠ fiberProgram → (w' k).owner = fiberProgram →
      ∃ n, (w' k).data = .bytes (List.replicate n 0))

inductive Event
  | instruction (ix : Ix)
  | foreign
  | endOfTransaction

/-- `threads` are the addresses of thread accounts, the only signers there are. -/
def Step (e : Env) (threads : Set Pubkey) (w : Ledger) : Event → Ledger → Prop
  | .instruction ix, w' => ix.signer ∈ threads ∧ exec e ix w = .ok w'
  | .foreign, w' => Foreign w w'
  | .endOfTransaction, w' => w' = w.collect

/-- Derivation separates threads and indices, and no derived address is a thread. -/
structure Derivation (e : Env) (threads : Set Pubkey) : Prop where
  injective : ∀ S ∈ threads, ∀ T ∈ threads, ∀ i j, e.pubkey S i = e.pubkey T j → S = T ∧ i = j
  fresh : ∀ S ∈ threads, ∀ T ∈ threads, ∀ i, e.pubkey S i ≠ T

/-- Every live fiber sits at a derived address of the thread it stores. -/
def Isolated (e : Env) (threads : Set Pubkey) (w : Ledger) : Prop :=
  ∀ k f, fiberAt w k = some f → f.thread ∈ threads ∧ ∃ i, k = e.pubkey f.thread i

/-- Creation over a live fiber meets a fiber of the signer itself. -/
def CreatesOwn (w : Ledger) : Event → Prop
  | .instruction (.create a) => ∀ f, fiberAt w a.fiber = some f → f.thread = a.thread
  | _ => True

/-- A step signed by `S` leaves the live fibers of all other threads as they are. -/
def Spares (e : Env) (threads : Set Pubkey) (S : Pubkey) (w w' : Ledger) : Prop :=
  ∀ T ∈ threads, T ≠ S → ∀ i f, fiberAt w (e.pubkey T i) = some f →
    w' (e.pubkey T i) = w (e.pubkey T i)

theorem readFiber_zeros (n : ℕ) (f : Fiber) :
    readFiber (.bytes (List.replicate n 0)) ≠ .ok f := by
  intro h
  simp only [readFiber, Fiber.tryDeserialize, List.length_replicate, List.take_replicate] at h
  by_cases hn : n < 8
  · simp [hn] at h
  · rw [if_neg hn, Nat.min_eq_left (by omega), if_neg (by decide), if_neg (by decide)] at h
    exact absurd h (by simp)

/-- A fiber at an address is determined by the owner and the data stored there. -/
theorem fiberAt_congr {w w' : Ledger} {k : Pubkey} (ho : (w' k).owner = (w k).owner)
    (hd : (w' k).data = (w k).data) : fiberAt w' k = fiberAt w k := by
  rw [fiberAt, fiberAt, ho, hd]

section Steps

variable {e : Env} {threads : Set Pubkey} {w w' : Ledger}

/-- The account at a derived address stores the thread it is derived from. -/
theorem stored_thread_of_pubkey (hd : Derivation e threads) (hI : Isolated e threads w) {S : Pubkey}
    (hS : S ∈ threads) {i : UInt8} {f : Fiber} (hf : fiberAt w (e.pubkey S i) = some f) :
    f.thread = S := by
  obtain ⟨hmem, j, hj⟩ := hI _ f hf
  exact ((hd.injective S hS _ hmem i j hj).1).symm

/-- An account that was fresh or held the signer's own fiber is at a derived address. -/
theorem Origin.address {S k : Pubkey} {i : UInt8} (ho : Origin e S k i w w')
    (hown : ∀ f, fiberAt w k = some f → f.thread = S) (hI : Isolated e threads w)
    (howner : (w' k).owner = fiberProgram) : ∃ j, k = e.pubkey S j := by
  rcases ho with ho | ho
  · exact ⟨i, ho.address.symm⟩
  · obtain ⟨g, hg⟩ := ho.read
    have hlive : fiberAt w k = some g :=
      fiberAt_eq_some.mpr ⟨by rw [← ho.owner]; exact howner, hg⟩
    obtain ⟨-, j, hj⟩ := hI k g hlive
    exact ⟨j, by rw [← hown g hlive]; exact hj⟩

theorem Writes.isolated {S k : Pubkey} (hw : Writes S k w w') (hS : S ∈ threads)
    (haddr : (w' k).owner = fiberProgram → ∃ i, k = e.pubkey S i) (hI : Isolated e threads w) :
    Isolated e threads w' := by
  intro j f hf
  by_cases hj : j = k
  · subst hj
    obtain ⟨f', hread, hthread⟩ := hw.fiber
    obtain ⟨howner, hf⟩ := fiberAt_eq_some.mp hf
    have he : f' = f := by rw [hread] at hf; exact Except.ok.inj hf
    rw [← he, hthread]
    exact ⟨hS, haddr howner⟩
  · rw [fiberAt, hw.frame j hj] at hf
    exact hI j f hf

theorem Sweeps.isolated {S k : Pubkey} (hw : Sweeps S k w w') (hI : Isolated e threads w) :
    Isolated e threads w' := by
  intro j f hf
  by_cases hj : j = k
  · subst hj
    exact absurd (fiberAt_eq_some.mp hf).2 (hw.unreadable f)
  · rw [fiberAt_congr (hw.owner j) (hw.data j hj)] at hf
    exact hI j f hf

/-- A write at a derived address of the signer misses every other thread's fibers. -/
theorem Writes.spares {S k : Pubkey} (hd : Derivation e threads) (hw : Writes S k w w')
    (hS : S ∈ threads) (haddr : (w k).owner = fiberProgram → ∃ i, k = e.pubkey S i) :
    Spares e threads S w w' := by
  intro T hT hne i f hf
  apply hw.frame
  intro hk
  obtain ⟨j, hj⟩ := haddr (by rw [← hk]; exact (fiberAt_eq_some.mp hf).1)
  exact hne (hd.injective T hT S hS i j (hk.trans hj)).1

/-- Closing an account that stores the signer misses every other thread's fibers. -/
theorem Sweeps.spares {S k : Pubkey} (hd : Derivation e threads) (hw : Sweeps S k w w')
    (hI : Isolated e threads w) (hS : S ∈ threads)
    (hown : ∀ f, fiberAt w k = some f → f.thread = S) : Spares e threads S w w' := by
  intro T hT hne i f hf
  apply hw.frame
  · intro hk
    have hthread := hown f (by rw [← hk]; exact hf)
    exact hne ((stored_thread_of_pubkey hd hI hT hf).symm.trans hthread)
  · exact hd.fresh T hT S hS i

theorem Spares.trans {S : Pubkey} {w1 : Ledger} (h : Spares e threads S w w1)
    (h' : Spares e threads S w1 w') : Spares e threads S w w' := by
  intro T hT hne i f hf
  have h1 := h T hT hne i f hf
  rw [← h1]
  apply h' T hT hne i f
  rw [fiberAt, h1]
  exact hf

theorem Origin.owner {S k : Pubkey} {i : UInt8} (ho : Origin e S k i w w')
    (howner : (w k).owner = fiberProgram) : (w' k).owner = fiberProgram := by
  rw [ho.owner_eq (by rw [howner]; exact fiberProgram_ne_systemProgram), howner]

/-- The step lemma: an instruction that meets the guard keeps isolation and spares
the fibers of all other threads. -/
theorem exec_isolated (hd : Derivation e threads) {ix : Ix} (hS : ix.signer ∈ threads)
    (hc : CreatesOwn w (.instruction ix)) (h : exec e ix w = .ok w') (hI : Isolated e threads w) :
    Isolated e threads w' ∧ Spares e threads ix.signer w w' := by
  cases ix with
  | create a =>
    obtain ⟨hw, ho⟩ := create_eq_ok h
    have haddr := ho.address hc hI
    exact ⟨hw.isolated hS haddr hI, hw.spares hd hS fun howner => haddr (ho.owner howner)⟩
  | update a =>
    obtain ⟨hseeds, hw, -⟩ := update_eq_ok h
    exact ⟨hw.isolated hS (fun _ => ⟨_, hseeds.symm⟩) hI, hw.spares hd hS fun _ => ⟨_, hseeds.symm⟩⟩
  | close a =>
    obtain ⟨⟨f, hread, hf⟩, hw⟩ := close_eq_ok h
    refine ⟨hw.isolated hI, hw.spares hd hI hS fun g hg => ?_⟩
    rw [(fiberAt_eq_some.mp hg).2] at hread
    rw [Except.ok.inj hread]
    exact hf
  | swap a =>
    obtain ⟨source, target, w1, hs, hst, ht, htt, hw, hre, hsw⟩ := swap_eq_ok h
    have ho : Origin e a.thread a.target 0 w w1 := Or.inr hre
    have htarget : ∀ f, fiberAt w a.target = some f → f.thread = a.thread := by
      intro f hf
      have hread := (fiberAt_eq_some.mp hf).2
      rw [ht] at hread
      rw [← Except.ok.inj hread]
      exact htt
    have haddr := ho.address htarget hI
    have hI1 := hw.isolated hS haddr hI
    have hsource : ∀ f, fiberAt w1 a.source = some f → f.thread = a.thread := by
      intro f hf
      have hread := (fiberAt_eq_some.mp hf).2
      by_cases hk : a.source = a.target
      · obtain ⟨f', hf', hthread⟩ := hw.fiber
        rw [hk, hf'] at hread
        rw [← Except.ok.inj hread]
        exact hthread
      · rw [hw.frame _ hk, hs] at hread
        rw [← Except.ok.inj hread]
        exact hst
    refine ⟨hsw.isolated hI1, Spares.trans ?_ (hsw.spares hd hI1 hS hsource)⟩
    exact hw.spares hd hS fun ho' => haddr (ho.owner ho')

/-- A creation outside the guard hands a live fiber of one thread to another. -/
theorem create_not_isolated (hd : Derivation e threads) {a : CreateArgs} (hS : a.thread ∈ threads)
    (h : create e a w = .ok w') (hI : Isolated e threads w) {f : Fiber}
    (hf : fiberAt w a.fiber = some f) (hne : f.thread ≠ a.thread) : ¬ Isolated e threads w' := by
  intro hI'
  obtain ⟨hw, ho⟩ := create_eq_ok h
  obtain ⟨g, hg, hthread⟩ := hw.fiber
  have howner := ho.owner (fiberAt_eq_some.mp hf).1
  obtain ⟨-, j, hj⟩ := hI' _ g (fiberAt_eq_some.mpr ⟨howner, hg⟩)
  obtain ⟨hT, i, hi⟩ := hI _ f hf
  rw [hthread] at hj
  exact hne (hd.injective _ hT _ hS i j (hi.symm.trans hj)).1

theorem foreign_isolated (h : Foreign w w') (hI : Isolated e threads w) :
    Isolated e threads w' := by
  intro k f hf
  obtain ⟨howner, hread⟩ := fiberAt_eq_some.mp hf
  by_cases ho : (w k).owner = fiberProgram
  · obtain ⟨-, hdata, -⟩ := (h k).1 ho
    rw [hdata] at hread
    exact hI k f (fiberAt_eq_some.mpr ⟨ho, hread⟩)
  · obtain ⟨n, hn⟩ := (h k).2 ho howner
    rw [hn] at hread
    exact absurd hread (readFiber_zeros n f)

theorem collect_isolated (hI : Isolated e threads w) : Isolated e threads w.collect := by
  intro k f hf
  by_cases hl : (w k).lamports = 0
  · have hv : w.collect k = Account.vacant := by simp [Ledger.collect, hl]
    rw [fiberAt, hv, if_neg (by decide)] at hf
    exact absurd hf (by simp)
  · have hv : w.collect k = w k := by simp [Ledger.collect, hl]
    rw [fiberAt, hv] at hf
    exact hI k f hf

end Steps

/-- Isolation over whole runs. As long as every creation over a live fiber is by the
thread that fiber stores, every reached ledger is isolated. From there the next
instruction keeps isolation and spares all other threads exactly if it is no
creation over another thread's fiber. -/
theorem isolated_iff_createsOwn {e : Env} {threads : Set Pubkey} (hd : Derivation e threads)
    {w₀ w : Ledger} {events : List Event} (h₀ : Isolated e threads w₀)
    (h : Run (Guarded (Step e threads) CreatesOwn) w₀ events w) :
    Isolated e threads w ∧ ∀ ix w', ix.signer ∈ threads → exec e ix w = .ok w' →
      ((Isolated e threads w' ∧ Spares e threads ix.signer w w') ↔
        CreatesOwn w (.instruction ix)) := by
  have hI : Isolated e threads w := by
    refine h.invariant (fun s ev t hs hstep => ?_) h₀
    obtain ⟨hc, hstep⟩ := hstep
    cases ev with
    | instruction ix => exact (exec_isolated hd hstep.1 hc hstep.2 hs).1
    | foreign => exact foreign_isolated hstep hs
    | endOfTransaction =>
      rw [hstep]
      exact collect_isolated hs
  refine ⟨hI, fun ix w' hS hexec => ⟨fun hw' => ?_, fun hc => exec_isolated hd hS hc hexec hI⟩⟩
  cases ix with
  | create a =>
    intro f hf
    by_contra hne
    exact create_not_isolated hd hS hexec hI hf hne hw'.1
  | update a => trivial
  | close a => trivial
  | swap a => trivial

/-! ## Two threads and one fiber -/

/-- Derivation for small thread keys, and the rent of the main network. -/
def sampleEnv : Env where
  pubkey t i := BitVec.ofNat 256 (t.toNat * 65536 + 256 + i.toNat)
  minimumBalance n := (128 + n) * 6960

def insertionOrder : HashOrder := ⟨id, fun _ => List.Perm.refl _⟩

def sampleThreads : Set Pubkey := {1, 2}

/-- A memo signed by the thread itself. -/
def sampleMemo (t : Pubkey) : Instruction := ⟨threadProgram, [⟨t, true, false⟩], [7]⟩

/-- Thread `t` creates index 0 in the account that is fiber 0 of thread 1. -/
def sampleCreate (t : Pubkey) : CreateArgs :=
  ⟨t, sampleEnv.pubkey 1 0, 0, sampleMemo t, 0, [], insertionOrder⟩

/-- The pre-funded address of fiber 0 of thread 1. -/
def sampleLedger : Ledger := fun k =>
  if k = sampleEnv.pubkey 1 0 then ⟨9416880, systemProgram, .bytes []⟩ else Account.vacant

theorem sampleThreads_toNat {t : Pubkey} (ht : t ∈ sampleThreads) : 1 ≤ t.toNat ∧ t.toNat ≤ 2 := by
  rcases ht with rfl | rfl <;> decide

theorem sampleEnv_toNat {t : Pubkey} (ht : t ∈ sampleThreads) (i : UInt8) :
    (sampleEnv.pubkey t i).toNat = t.toNat * 65536 + 256 + i.toNat := by
  have hi := i.toNat_lt
  have hsmall := sampleThreads_toNat ht
  simp only [sampleEnv, BitVec.toNat_ofNat]
  apply Nat.mod_eq_of_lt
  omega

theorem sampleEnv_derivation : Derivation sampleEnv sampleThreads := by
  refine ⟨fun S hS T hT i j h => ?_, fun S hS T hT i h => ?_⟩
  · have hi := i.toNat_lt
    have hj := j.toNat_lt
    have heq := congrArg BitVec.toNat h
    rw [sampleEnv_toNat hS, sampleEnv_toNat hT] at heq
    exact ⟨BitVec.eq_of_toNat_eq (by omega), UInt8.toNat_inj.mp (by omega)⟩
  · have hs := sampleThreads_toNat hS
    have ht := sampleThreads_toNat hT
    have heq := congrArg BitVec.toNat h
    rw [sampleEnv_toNat hS] at heq
    omega

theorem sampleLedger_no_fiber (k : Pubkey) : fiberAt sampleLedger k = none := by
  have ho : (sampleLedger k).owner = systemProgram := by
    unfold sampleLedger
    split <;> rfl
  rw [fiberAt, ho, if_neg (by decide)]

theorem sampleLedger_isolated : Isolated sampleEnv sampleThreads sampleLedger := by
  intro k f hf
  rw [sampleLedger_no_fiber] at hf
  exact absurd hf (by simp)

set_option maxRecDepth 20000 in
/-- Thread 2 passes fiber 0 of thread 1 to `create` and owns it afterwards. -/
theorem create_takes_other_threads_fiber :
    Derivation sampleEnv sampleThreads ∧ (∀ k, fiberAt sampleLedger k = none) ∧
      ¬ ∀ events w, Run (Step sampleEnv sampleThreads) sampleLedger events w →
        Isolated sampleEnv sampleThreads w := by
  refine ⟨sampleEnv_derivation, sampleLedger_no_fiber, fun hall => ?_⟩
  have hrun : (exec sampleEnv (.create (sampleCreate 1)) sampleLedger >>=
      exec sampleEnv (.create (sampleCreate 2))).map
        (fun w => (fiberAt w (sampleEnv.pubkey 1 0)).map Fiber.thread) = .ok (some 2) := by
    decide +kernel
  simp only [map_eq_ok, bind_eq_ok] at hrun
  obtain ⟨w2, ⟨w1, h1, h2⟩, hthread⟩ := hrun
  have hI := hall [.instruction (.create (sampleCreate 1)), .instruction (.create (sampleCreate 2))]
    w2 (.cons ⟨Or.inl rfl, h1⟩ (.cons ⟨Or.inr rfl, h2⟩ (.nil w2)))
  obtain ⟨f, hf, hf2⟩ := Option.map_eq_some_iff.mp hthread
  have hstored := stored_thread_of_pubkey sampleEnv_derivation hI (Or.inl rfl) hf
  rw [hstored] at hf2
  exact absurd hf2 (by decide)

set_option maxRecDepth 20000 in
theorem isolated_after_create :
    ∃ w, Run (Guarded (Step sampleEnv sampleThreads) CreatesOwn) sampleLedger
        [.instruction (.create (sampleCreate 1))] w ∧
      Isolated sampleEnv sampleThreads w := by
  have hrun : (exec sampleEnv (.create (sampleCreate 1)) sampleLedger).map (fun _ => ()) =
      .ok () := by
    decide +kernel
  obtain ⟨w, hw, -⟩ := map_eq_ok.mp hrun
  have hguard : CreatesOwn sampleLedger (.instruction (.create (sampleCreate 1))) := by
    intro f hf
    rw [sampleLedger_no_fiber] at hf
    exact absurd hf (by simp)
  have hr : Run (Guarded (Step sampleEnv sampleThreads) CreatesOwn) sampleLedger
      [.instruction (.create (sampleCreate 1))] w :=
    .cons ⟨hguard, Or.inl rfl, hw⟩ (.nil w)
  exact ⟨w, hr, (isolated_iff_createsOwn sampleEnv_derivation sampleLedger_isolated hr).1⟩

end Antegen.FiberProgram
